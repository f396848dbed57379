import Octets.Proofs.Entries
import Octets.Proofs.Form.Chunking
import Octets.Proofs.Form.Pairs
import Octets.Proofs.Form.Syntax
import Octets.Proofs.Stream.Stop

/-!
# Encoded forms are read by their syntax

What a reader takes for an encoded form is compared with the syntax of such forms.
An encoded form need not say where it ends, so what counts is what a session *comes
to* when some bytes are read and the body is finished behind them. Each phase is an
`↔`: a session comes to a form on some bytes exactly if they begin with what belongs
there and the session behind it comes to that form on the rest.

Two phases need none of their own. A body that does not begin with two dashes is read
as if an ampersand stood in front of it, and in front of a value the session is as
inside one of which no byte has come.

## Main definitions

* `Form.ComesTo` — what a session comes to when the body ends behind some bytes

## Main results

* `comesTo_keyRest_iff`, `comesTo_value_iff`, `comesTo_nextKey_iff` — one phase each
* `comesTo_iff_writtenEncoded` — a session comes to just what is written
* `Reader.conclude_feedAll_eq_finished_iff` — the bodies that can be finished
-/

namespace Octets.Form

open Octets.Stream Octets.Stream.Grammar

variable {form result : Form} {key : String} {token bytes rest : Bytes} {b : UInt8}
  {marked : Bool} {s : Session Memory}

/-- A session in an encoded form. -/
abbrev encoded (phase : Phase) (form : Form) (key : String) (token : Option Bytes) :
    Session Memory :=
  ⟨⟨phase, form, key, [], .empty⟩, token, none, 0⟩

/-- The form with one more field. -/
def addField (form : Form) (key value : String) : Form :=
  { form with fields := form.fields.insert key value }

/-- What a session comes to when some bytes are read and the body ends behind them,
and whether they themselves marked its end. -/
def ComesTo (s : Session Memory) (bytes : Bytes) (marked : Bool) (form : Form) : Prop :=
  ∃ last, grammar.Stops s bytes last ∧ grammar.isDone last.memory = marked ∧
    (Reader.finish ⟨last⟩).2 = .ok form

/-! ## Steps -/

theorem comesTo_nil_iff : ComesTo s [] marked form ↔
    grammar.isDone s.memory = marked ∧ (Reader.finish ⟨s⟩).2 = .ok form := by
  simp [ComesTo, stops_nil_iff]

theorem comesTo_of_done_iff :
    ComesTo (encoded .done form key none) bytes marked result ↔ marked = true ∧ result = form := by
  have done : grammar.isDone (encoded .done form key none).memory = true := rfl
  simp only [ComesTo, stops_of_done_iff done, exists_eq_left, done, Reader.finish, Except.ok.injEq,
    eq_comm]

theorem comesTo_of_read_iff {next : Session Memory} (pending : grammar.isDone s.memory = false)
    (step : grammar.read s b = .ok next) :
    ComesTo s (b :: bytes) marked form ↔ ComesTo next bytes marked form := by
  simp only [ComesTo, stops_of_read_iff pending step]

theorem comesTo_cons_congr {s' : Session Memory} (pending : grammar.isDone s.memory = false)
    (pending' : grammar.isDone s'.memory = false) (same : grammar.read s b = grammar.read s' b) :
    ComesTo s (b :: bytes) marked form ↔ ComesTo s' (b :: bytes) marked form := by
  simp only [ComesTo, stops_cons_congr pending pending' same]

theorem not_comesTo_of_refuse (pending : grammar.isDone s.memory = false)
    (refuses : ∃ fault, visit s.memory b = .refuse fault) :
    ¬ ComesTo s (b :: bytes) marked form := by
  rintro ⟨last, stops, _⟩
  exact not_stops_of_refuse pending refuses stops

/-- A byte behind a token is passed exactly if there is a use for the token. -/
theorem comesTo_behind_iff {m : Memory} {use : Bytes → Except Fault Memory} (phase : Phase)
    (pending : grammar.isDone m = false)
    (moves : visit m b = .behind fun token => (use token).map (·.enter phase)) :
    ComesTo ⟨m, some token, none, 0⟩ (b :: bytes) marked result ↔
      ∃ next, use token = .ok next ∧ ComesTo ⟨next.enter phase, none, none, 0⟩ bytes marked
        result := by
  cases used : use token with
  | ok next =>
    have step : grammar.read ⟨m, some token, none, 0⟩ b = .ok ⟨next.enter phase, none, none, 0⟩ :=
      read_behind rfl moves (by rw [Session.openBytes, Option.getD_some, used]; rfl)
    rw [comesTo_of_read_iff pending step]
    simp
  | error fault =>
    refine iff_of_false ?_ (by simp)
    rintro ⟨last, stops, _⟩
    obtain ⟨next, step, _⟩ := (stops_cons_iff pending).mp stops
    have moves' : grammar.move m b = .behind fun token => (use token).map (·.enter phase) := moves
    simp only [Grammar.read, moves', close_of_unlimited, Session.openBytes, Option.getD_some, used,
      Except.map] at step
    cases step

/-- A phase that takes the bytes of a class into its token goes on behind the longest
run of them. -/
theorem comesTo_scan_iff (phase : Phase) {cls : UInt8 → Bool} (pending : phase ≠ .done)
    (pass : ∀ b, cls b = true → visit ⟨phase, form, key, [], .empty⟩ b =
      .inside ⟨phase, form, key, [], .empty⟩) :
    ComesTo (encoded phase form key (some token)) bytes marked result ↔
      ∃ run back, bytes = run ++ back ∧ (∀ c ∈ run, cls c = true) ∧
        (∀ b ∈ back.head?, cls b = false) ∧
        ComesTo (encoded phase form key (some (token ++ run))) back marked result := by
  have pending' (run : Bytes) :
      grammar.isDone (encoded phase form key (some run)).memory = false := by
    simpa [grammar] using pending
  have pass' (run : Bytes) (b : UInt8) (fits : cls b = true) :
      grammar.read (encoded phase form key (some run)) b =
        .ok (encoded phase form key (some (run ++ [b]))) := read_inside (pass b fits)
  have scan (last : Session Memory) :
      grammar.Stops (encoded phase form key (some token)) bytes last ↔ _ :=
    stops_scan_iff (fun run => encoded phase form key (some run)) pending' pass' token
  constructor
  · rintro ⟨last, stops, ending⟩
    obtain ⟨run, back, cut, all, stop, stops⟩ := (scan last).mp stops
    exact ⟨run, back, cut, all, stop, last, stops, ending⟩
  · rintro ⟨run, back, cut, all, stop, last, stops, ending⟩
    exact ⟨last, (scan last).mpr ⟨run, back, cut, all, stop, stops⟩, ending⟩

/-! ## Keys -/

theorem isKey_iff : isKey b = true ↔ 0x20 ≤ b ∧ b ≠ 0x3D := by simp [isKey, isText]

theorem isValue_iff : isValue b = true ↔ 0x20 ≤ b ∧ b ≠ 0x26 := by simp [isValue, isText]

theorem storeKey_eq_ok_iff {phase : Phase} {m : Memory} :
    Memory.storeKey ⟨phase, form, key, [], .empty⟩ token = .ok m ↔
      ∃ name, Decodes token name ∧ m = ⟨phase, form, name, [], .empty⟩ := by
  unfold Memory.storeKey Decodes
  cases decode token with
  | none => simp
  | some decoded => simp [eq_comm]

/-- An equals sign ends a key that can be decoded. -/
theorem comesTo_keyEnd_iff :
    ComesTo (encoded .keyRest form key (some token)) (Byte.equal :: bytes) marked result ↔
      ∃ name, Decodes token name ∧
        ComesTo (encoded .value form name none) bytes marked result := by
  rw [comesTo_behind_iff .value rfl rfl]
  constructor
  · rintro ⟨m, stored, onward⟩
    obtain ⟨name, decodes, rfl⟩ := storeKey_eq_ok_iff.mp stored
    exact ⟨name, decodes, onward⟩
  · rintro ⟨name, decodes, onward⟩
    exact ⟨_, storeKey_eq_ok_iff.mpr ⟨name, decodes, rfl⟩, onward⟩

/-- The rest of a key goes up to the first equals sign. -/
theorem comesTo_keyRest_iff :
    ComesTo (encoded .keyRest form key (some token)) bytes marked result ↔
      ∃ run name rest, (∀ b ∈ run, isKey b = true) ∧ Decodes (token ++ run) name ∧
        bytes = run ++ Byte.equal :: rest ∧
        ComesTo (encoded .value form name none) rest marked result := by
  rw [comesTo_scan_iff .keyRest (by decide) fun b fits => if_pos fits]
  constructor
  · rintro ⟨run, back, rfl, all, stop, comes⟩
    cases back with
    -- A body cannot end inside a key.
    | nil => exact nomatch (comesTo_nil_iff.mp comes).2
    | cons b rest =>
      have stop : isKey b = false := stop b rfl
      by_cases equal : b = Byte.equal
      · subst equal
        obtain ⟨name, decodes, onward⟩ := comesTo_keyEnd_iff.mp comes
        exact ⟨run, name, rest, all, decodes, rfl, onward⟩
      · refine absurd comes (not_comesTo_of_refuse rfl ⟨.key, ?_⟩)
        simp [visit, visitKey, stop, equal]
  · rintro ⟨run, name, rest, all, decodes, rfl, onward⟩
    have stop : ∀ b ∈ (Byte.equal :: rest).head?, isKey b = false := by
      rintro b ⟨⟩
      rfl
    exact ⟨run, _, rfl, all, stop, comesTo_keyEnd_iff.mpr ⟨name, decodes, onward⟩⟩

/-- Behind an ampersand the body may end, or else a key and an equals sign come. -/
theorem comesTo_nextKey_iff :
    ComesTo (encoded .nextKey form key none) bytes marked result ↔
      (bytes = [] ∧ marked = false ∧ result = form) ∨
        ∃ name content rest, WrittenKey name content ∧ bytes = content ++ Byte.equal :: rest ∧
          ComesTo (encoded .value form name none) rest marked result := by
  cases bytes with
  | nil =>
    have pending : grammar.isDone (encoded .nextKey form key none).memory = false := rfl
    have finished : (Reader.finish ⟨encoded .nextKey form key none⟩).2 = .ok form := rfl
    rw [comesTo_nil_iff, pending, finished, Except.ok.injEq]
    constructor
    · rintro ⟨rfl, rfl⟩
      exact .inl ⟨rfl, rfl, rfl⟩
    · rintro (⟨_, rfl, rfl⟩ | ⟨name, content, rest, _, cut, _⟩)
      · exact ⟨rfl, rfl⟩
      · simp at cut
  | cons b tail =>
    have opens (fits : isKey b = true) : grammar.read (encoded .nextKey form key none) b =
        .ok (encoded .keyRest form key (some [b])) := by
      have moves : visit ⟨.nextKey, form, key, [], .empty⟩ b =
          .first ⟨.keyRest, form, key, [], .empty⟩ := if_pos fits
      exact read_first moves
    constructor
    · intro comes
      cases fits : isKey b with
      | false =>
        exact absurd comes (not_comesTo_of_refuse rfl ⟨.key, if_neg (by simp [fits])⟩)
      | true =>
        rw [comesTo_of_read_iff rfl (opens fits), comesTo_keyRest_iff] at comes
        obtain ⟨run, name, rest, all, decodes, rfl, onward⟩ := comes
        refine .inr ⟨name, b :: run, rest, ⟨List.cons_ne_nil b run, ?_, decodes⟩, rfl, onward⟩
        intro c member
        rcases List.mem_cons.mp member with rfl | inside
        · exact isKey_iff.mp fits
        · exact isKey_iff.mp (all c inside)
    · rintro (⟨impossible, _⟩ | ⟨name, content, rest, ⟨nonempty, all, decodes⟩, cut, onward⟩)
      · cases impossible
      · obtain ⟨c, run, rfl⟩ := List.exists_cons_of_ne_nil nonempty
        obtain ⟨rfl, rfl⟩ := List.cons.inj cut
        obtain ⟨first, others⟩ := List.forall_mem_cons.mp all
        rw [comesTo_of_read_iff rfl (opens (isKey_iff.mpr first)), comesTo_keyRest_iff]
        exact ⟨run, name, rest, fun c inside => isKey_iff.mpr (others c inside), decodes, rfl,
          onward⟩

/-! ## The first key -/

theorem visitKey_congr (phase phase' : Phase) :
    visitKey ⟨phase, form, key, [], .empty⟩ b = visitKey ⟨phase', form, key, [], .empty⟩ b := by
  have stores (token : Bytes) :
      (Memory.storeKey ⟨phase, form, key, [], .empty⟩ token).map (·.enter .value) =
        (Memory.storeKey ⟨phase', form, key, [], .empty⟩ token).map (·.enter .value) := by
    unfold Memory.storeKey
    split <;> rfl
  simp only [visitKey, stores]
  rfl

/-- A dash that no other follows is the first byte of a key. -/
theorem comesTo_dash_iff (single : bytes.head? ≠ some Byte.minus) :
    ComesTo (encoded .dash form key (some token)) bytes marked result ↔
      ComesTo (encoded .keyRest form key (some token)) bytes marked result := by
  cases bytes with
  | nil =>
    rw [comesTo_nil_iff, comesTo_nil_iff]
    exact iff_of_false nofun nofun
  | cons b rest =>
    have other : b ≠ Byte.minus := fun equal => single (congrArg some equal)
    have moves : visit ⟨.dash, form, key, [], .empty⟩ b =
        visit ⟨.keyRest, form, key, [], .empty⟩ b :=
      (if_neg other).trans (visitKey_congr .dash .keyRest)
    exact comesTo_cons_congr rfl rfl (read_congr moves)

/-- A body that does not begin with two dashes is read as behind an ampersand. -/
theorem comesTo_start_iff (plain : ¬ dashes <+: bytes) :
    ComesTo (encoded .start form key none) bytes marked result ↔
      ComesTo (encoded .nextKey form key none) bytes marked result := by
  cases bytes with
  | nil =>
    rw [comesTo_nil_iff, comesTo_nil_iff]
    rfl
  | cons b rest =>
    by_cases dash : b = Byte.minus
    · subst dash
      have single : rest.head? ≠ some Byte.minus := by
        intro second
        obtain ⟨tail, rfl⟩ := List.head?_eq_some_iff.mp second
        exact plain ⟨tail, rfl⟩
      have step : grammar.read (encoded .start form key none) Byte.minus =
          .ok (encoded .dash form key (some [Byte.minus])) := read_first rfl
      have step' : grammar.read (encoded .nextKey form key none) Byte.minus =
          .ok (encoded .keyRest form key (some [Byte.minus])) := read_first rfl
      rw [comesTo_of_read_iff rfl step, comesTo_of_read_iff rfl step', comesTo_dash_iff single]
    · cases fits : isKey b with
      | true =>
        have moves : visit ⟨.start, form, key, [], .empty⟩ b =
            visit ⟨.nextKey, form, key, [], .empty⟩ b := by
          simp [visit, dash, fits, Memory.enter]
        exact comesTo_cons_congr rfl rfl (read_congr moves)
      | false =>
        refine iff_of_false (not_comesTo_of_refuse rfl ⟨.body, ?_⟩)
          (not_comesTo_of_refuse rfl ⟨.key, ?_⟩)
        · simp [visit, dash, fits]
        · simp [visit, fits]

/-! ## Values -/

theorem isTerminator_iff : isTerminator b = true ↔ b = 0x0D ∨ b = 0x00 := by simp [isTerminator]

/-- What a form comes to behind a value. -/
inductive BehindValue (form result : Form) : Bool → Bytes → Prop
  | nothing : result = form → BehindValue form result false []
  | ampersand {marked : Bool} {rest : Bytes} :
      ComesTo (encoded .nextKey form "" none) rest marked result →
        BehindValue form result marked (0x26 :: rest)
  | mark {b : UInt8} (rest : Bytes) :
      b = 0x0D ∨ b = 0x00 → result = form → BehindValue form result true (b :: rest)

theorem storeToken_eq_ok_iff {phase : Phase} {m : Memory} :
    Memory.storeToken ⟨phase, form, key, [], .empty⟩ token = .ok m ↔
      ∃ value, Decodes token value ∧ m = ⟨phase, form.addField key value, "", [], .empty⟩ := by
  unfold Memory.storeToken Decodes
  cases decode token with
  | none => simp
  | some decoded => simp [Memory.storeValue, addField, eq_comm]

/-- A body may end in a value that can be decoded. -/
theorem comesTo_valueRest_nil_iff :
    ComesTo (encoded .valueRest form key (some token)) [] marked result ↔
      marked = false ∧ ∃ value, Decodes token value ∧ result = form.addField key value := by
  have pending : grammar.isDone (encoded .valueRest form key (some token)).memory = false := rfl
  rw [comesTo_nil_iff, pending, eq_comm (a := false)]
  refine and_congr_right fun _ => ?_
  have finished : (Reader.finish ⟨encoded .valueRest form key (some token)⟩).2 =
      ((Memory.storeToken ⟨.valueRest, form, key, [], .empty⟩ token).map (·.form)).mapError
        fun fault => ⟨fault, 0⟩ := by
    unfold Reader.finish
    simp only [Grammar.collect, Session.exceeded_of_unlimited, Session.openBytes, Option.getD_some]
    generalize Memory.storeToken ⟨.valueRest, form, key, [], .empty⟩ token = stored
    cases stored <;> rfl
  rw [finished]
  constructor
  · intro ends
    cases stored : Memory.storeToken ⟨.valueRest, form, key, [], .empty⟩ token with
    | error fault =>
      rw [stored] at ends
      cases ends
    | ok m =>
      rw [stored] at ends
      obtain ⟨value, decodes, rfl⟩ := storeToken_eq_ok_iff.mp stored
      cases ends
      exact ⟨value, decodes, rfl⟩
  · rintro ⟨value, decodes, rfl⟩
    rw [storeToken_eq_ok_iff.mpr ⟨value, decodes, rfl⟩]
    rfl

/-- A value that can be decoded ends with the body, at an ampersand or at a mark. -/
theorem comesTo_valueEnd_iff (stop : ∀ b ∈ bytes.head?, isValue b = false) :
    ComesTo (encoded .valueRest form key (some token)) bytes marked result ↔
      ∃ value, Decodes token value ∧ BehindValue (form.addField key value) result marked bytes := by
  let m : Memory := ⟨.valueRest, form, key, [], .empty⟩
  cases bytes with
  | nil =>
    rw [comesTo_valueRest_nil_iff]
    constructor
    · rintro ⟨rfl, value, decodes, rfl⟩
      exact ⟨value, decodes, .nothing rfl⟩
    · rintro ⟨value, decodes, ⟨rfl⟩⟩
      exact ⟨rfl, value, decodes, rfl⟩
  | cons b rest =>
    have stop : isValue b = false := stop b rfl
    by_cases ampersand : b = Byte.ampersand
    · subst ampersand
      rw [comesTo_behind_iff .nextKey rfl rfl]
      constructor
      · rintro ⟨m, stored, onward⟩
        obtain ⟨value, decodes, rfl⟩ := storeToken_eq_ok_iff.mp stored
        exact ⟨value, decodes, .ampersand onward⟩
      · rintro ⟨value, decodes, ⟨_⟩ | onward | ⟨_, mark, _⟩⟩
        · exact ⟨_, storeToken_eq_ok_iff.mpr ⟨value, decodes, rfl⟩, onward⟩
        · exact absurd mark (by decide)
    cases terminates : isTerminator b with
    | true =>
      have moves : visit m b = .behind fun token => (m.storeToken token).map (·.enter .done) := by
        simp [m, visit, stop, ampersand, terminates]
      rw [comesTo_behind_iff .done rfl moves]
      constructor
      · rintro ⟨m, stored, onward⟩
        obtain ⟨value, decodes, rfl⟩ := storeToken_eq_ok_iff.mp stored
        obtain ⟨rfl, rfl⟩ := comesTo_of_done_iff.mp onward
        exact ⟨value, decodes, .mark rest (isTerminator_iff.mp terminates) rfl⟩
      · rintro ⟨value, decodes, ⟨_⟩ | ⟨_⟩ | ⟨_, _, rfl⟩⟩
        · exact absurd rfl ampersand
        · exact ⟨_, storeToken_eq_ok_iff.mpr ⟨value, decodes, rfl⟩,
            comesTo_of_done_iff.mpr ⟨rfl, rfl⟩⟩
    | false =>
      refine iff_of_false (not_comesTo_of_refuse rfl ⟨.value, ?_⟩) ?_
      · simp [visit, stop, ampersand, terminates]
      · rintro ⟨value, decodes, ⟨_⟩ | ⟨_⟩ | ⟨_, mark, _⟩⟩
        · exact ampersand rfl
        · rw [isTerminator_iff.mpr mark] at terminates
          cases terminates

/-- In front of a value the session is as inside one of which no byte has come. -/
theorem comesTo_value_iff_valueRest :
    ComesTo (encoded .value form key none) bytes marked result ↔
      ComesTo (encoded .valueRest form key (some [])) bytes marked result := by
  have stored : Memory.storeToken ⟨.valueRest, form, key, [], .empty⟩ [] =
      .ok ⟨.valueRest, form.addField key "", "", [], .empty⟩ :=
    storeToken_eq_ok_iff.mpr ⟨"", ⟨[], decode_nil, rfl⟩, rfl⟩
  cases bytes with
  | nil =>
    have pending : grammar.isDone (encoded .value form key none).memory = false := rfl
    have finished : (Reader.finish ⟨encoded .value form key none⟩).2 =
        .ok (form.addField key "") := rfl
    have empty (value : String) : Decodes [] value ↔ value = "" := by
      simp [Decodes, show Utf8.decodeLossy [] = "" from rfl]
    rw [comesTo_nil_iff, comesTo_valueRest_nil_iff, pending, finished]
    simp [empty, eq_comm]
  | cons b rest =>
    let m : Memory := ⟨.value, form, key, [], .empty⟩
    let m' : Memory := ⟨.valueRest, form, key, [], .empty⟩
    -- Where the value ends at once, its empty token is of use.
    have closes (phase : Phase) (moves : visit m b = .outside ((m.storeValue "").enter phase))
        (moves' : visit m' b = .behind fun token => (m'.storeToken token).map (·.enter phase)) :
        grammar.read (encoded .value form key none) b =
          grammar.read (encoded .valueRest form key (some [])) b := by
      have left := read_outside (g := grammar) (s := encoded .value form key none) moves
      have right := read_behind (g := grammar) (s := encoded .valueRest form key (some [])) rfl
        moves' (by rw [Session.openBytes, Option.getD_some, stored]; rfl)
      exact left.trans right.symm
    by_cases ampersand : b = Byte.ampersand
    · subst ampersand
      exact comesTo_cons_congr rfl rfl (closes .nextKey rfl rfl)
    cases terminates : isTerminator b with
    | true =>
      refine comesTo_cons_congr rfl rfl (closes .done ?_ ?_)
      · simp [m, visit, ampersand, terminates]
      · obtain rfl | rfl := isTerminator_iff.mp terminates <;> rfl
    | false =>
      cases fits : isText b with
      | true =>
        have left : visit m b = .first m' := by
          simp [m, m', visit, Memory.enter, ampersand, terminates, fits]
        have right : visit m' b = .inside m' := if_pos (by simp [isValue, fits, ampersand])
        have reads := read_first (g := grammar) (s := encoded .value form key none) left
        have reads' := read_inside (g := grammar) (s := encoded .valueRest form key (some [])) right
        exact comesTo_cons_congr rfl rfl (reads.trans reads'.symm)
      | false =>
        refine iff_of_false (not_comesTo_of_refuse rfl ⟨.value, ?_⟩)
          (not_comesTo_of_refuse rfl ⟨.value, ?_⟩)
        · simp [visit, ampersand, terminates, fits]
        · simp [visit, isValue, ampersand, terminates, fits]

/-- A value goes up to the first ampersand, and may be empty. -/
theorem comesTo_value_iff :
    ComesTo (encoded .value form key none) bytes marked result ↔
      ∃ value content back, WrittenValue value content ∧ bytes = content ++ back ∧
        BehindValue (form.addField key value) result marked back := by
  rw [comesTo_value_iff_valueRest,
    comesTo_scan_iff .valueRest (by decide) fun b fits => if_pos fits]
  constructor
  · rintro ⟨content, back, rfl, all, stop, comes⟩
    obtain ⟨value, decodes, behind⟩ := (comesTo_valueEnd_iff stop).mp comes
    exact ⟨value, content, back, ⟨fun c inside => isValue_iff.mp (all c inside), decodes⟩, rfl,
      behind⟩
  · rintro ⟨value, content, back, ⟨all, decodes⟩, rfl, behind⟩
    have stop : ∀ b ∈ back.head?, isValue b = false := by
      rintro b first
      cases behind with
      | nothing => cases first
      | ampersand => cases first; rfl
      | mark rest mark =>
        cases first
        obtain rfl | rfl := mark <;> rfl
    exact ⟨content, back, rfl, fun c inside => isValue_iff.mpr (all c inside), stop,
      (comesTo_valueEnd_iff stop).mpr ⟨value, decodes, behind⟩⟩

/-! ## Forms -/

/-- The form with more fields. -/
def addFields (form : Form) (pairs : List (String × String)) : Form :=
  { form with fields := form.fields.insertMany pairs }

theorem addFields_cons (form : Form) (key value : String) (pairs : List (String × String)) :
    form.addFields ((key, value) :: pairs) = (form.addField key value).addFields pairs := by
  simp only [addFields, addField, Std.TreeMap.insertMany_cons]

theorem addFields_singleton (form : Form) (key value : String) :
    form.addFields [(key, value)] = form.addField key value := by
  rw [addFields_cons]
  rfl

/-- What is written behind a value says what is to come. -/
theorem behindValue_of_encodedEnd (ends : EncodedEnd marked bytes) :
    BehindValue form form marked bytes := by
  cases ends with
  | nothing => exact .nothing rfl
  | ampersand => exact .ampersand (comesTo_nextKey_iff.mpr (.inl ⟨rfl, rfl, rfl⟩))
  | mark rest mark => exact .mark rest mark rfl

theorem comesTo_of_writtenPairs {pairs : List (String × String)} {back : Bytes}
    (written : WrittenPairs pairs bytes) (ends : EncodedEnd marked back) :
    ComesTo (encoded .nextKey form key none) (bytes ++ back) marked (form.addFields pairs) := by
  -- The induction is on how the pairs are written; the form so far is left open.
  induction written generalizing form key with
  | @last name value _ content writtenKey writtenValue =>
    rw [List.append_assoc, List.cons_append, addFields_singleton]
    exact comesTo_nextKey_iff.mpr (.inr ⟨_, _, _, writtenKey, rfl,
      comesTo_value_iff.mpr ⟨_, _, _, writtenValue, rfl, behindValue_of_encodedEnd ends⟩⟩)
  | @cons name value _ content rest pairs writtenKey writtenValue _ ih =>
    rw [List.append_assoc, List.cons_append, List.append_assoc, List.cons_append, addFields_cons]
    exact comesTo_nextKey_iff.mpr (.inr ⟨_, _, _, writtenKey, rfl,
      comesTo_value_iff.mpr ⟨_, _, _, writtenValue, rfl, .ampersand ih⟩⟩)

/-- One more pair in front of an encoded form. -/
theorem WrittenEncoded.cons {name value : String} {content content' : Bytes}
    {pairs : List (String × String)} (writtenKey : WrittenKey name content)
    (writtenValue : WrittenValue value content') (written : WrittenEncoded marked pairs bytes) :
    WrittenEncoded marked ((name, value) :: pairs)
      (content ++ Byte.equal :: (content' ++ Byte.ampersand :: bytes)) := by
  cases written with
  | empty =>
    simpa using WrittenEncoded.pairs (.last writtenKey writtenValue) .ampersand
  | pairs written ends =>
    simpa using WrittenEncoded.pairs (.cons writtenKey writtenValue written) ends

theorem writtenEncoded_of_comesTo
    (comes : ComesTo (encoded .nextKey form key none) bytes marked result) :
    ∃ pairs, WrittenEncoded marked pairs bytes ∧ result = form.addFields pairs := by
  -- The induction is on the length, since a pair is taken off the front whole.
  induction length : bytes.length using Nat.strongRecOn generalizing bytes form key with
  | ind n ih =>
    obtain ⟨rfl, rfl, rfl⟩ | ⟨name, content, _, writtenKey, rfl, onward⟩ :=
      comesTo_nextKey_iff.mp comes
    · exact ⟨[], .empty, rfl⟩
    obtain ⟨value, content', back, writtenValue, rfl, behind⟩ := comesTo_value_iff.mp onward
    have last {marked : Bool} (ends : EncodedEnd marked back) :
        WrittenEncoded marked [(name, value)] (content ++ Byte.equal :: (content' ++ back)) := by
      simpa using WrittenEncoded.pairs (.last writtenKey writtenValue) ends
    cases behind with
    | nothing same => exact ⟨_, last .nothing, by rw [same, addFields_singleton]⟩
    | mark rest mark same => exact ⟨_, last (.mark rest mark), by rw [same, addFields_singleton]⟩
    | @ampersand _ rest comes' =>
      have shorter : rest.length < n := by
        rw [← length]
        simp only [List.length_append, List.length_cons]
        omega
      obtain ⟨pairs, written, rfl⟩ := ih _ shorter comes' rfl
      exact ⟨_, written.cons writtenKey writtenValue, (addFields_cons ..).symm⟩

/-- A session comes to just what is written. -/
theorem comesTo_iff_writtenEncoded :
    ComesTo (encoded .nextKey form key none) bytes marked result ↔
      ∃ pairs, WrittenEncoded marked pairs bytes ∧ result = form.addFields pairs := by
  refine ⟨writtenEncoded_of_comesTo, ?_⟩
  rintro ⟨pairs, written, rfl⟩
  cases written with
  | empty => exact comesTo_nextKey_iff.mpr (.inl ⟨rfl, rfl, rfl⟩)
  | pairs written ends => exact comesTo_of_writtenPairs written ends

namespace Reader

/-- Finishing does not ask how many bytes were consumed. -/
theorem finish_recount_eq_ok_iff (n : Nat) :
    (finish ⟨s.recount n⟩).2 = .ok form ↔ (finish ⟨s⟩).2 = .ok form := by
  have same : grammar.collect (s.recount n) = grammar.collect s := rfl
  unfold finish
  simp only [Session.recount_memory, same]
  cases s.memory.phase with
  | valueRest =>
    cases grammar.collect s with
    | error fault => exact iff_of_false nofun nofun
    | ok token =>
      simp only
      cases s.memory.storeToken token with
      | error fault => exact iff_of_false nofun nofun
      | ok m => rfl
  | start | nextKey | value | done => rfl
  | _ => exact iff_of_false nofun nofun

theorem conclude_session_eq_finished_iff :
    (∃ consumed boundary, conclude (⟨s⟩, .ok true) = .finished marked consumed boundary form) ↔
      grammar.isDone s.memory = marked ∧ (finish ⟨s⟩).2 = .ok form := by
  unfold conclude
  rcases finish ⟨s⟩ with ⟨after, failure | result⟩
  · simp
  · simp [isDone]

/-- What a body that has been fed comes to. -/
theorem conclude_feedAll_iff_comesTo (capacity : Nat) (chunks : List Bytes) :
    (∃ consumed boundary, conclude ((start ⟨capacity, none⟩).feedAll chunks) =
        .finished marked consumed boundary form) ↔
      ComesTo (encoded .start .empty "" none) chunks.flatten marked form := by
  let fresh : Session Memory := encoded .start .empty "" none
  have settled (last : Session Memory) : settle (grammar.feedAll fresh chunks) = .ok last ↔ _ :=
    settle_feedAll_eq_ok_iff rfl
  rw [conclude_eq_match_settle, feedAll_session,
    show (start ⟨capacity, none⟩).session = fresh from rfl]
  cases run : settle (grammar.feedAll fresh chunks) with
  | error failure =>
    refine iff_of_false (by simp) ?_
    rintro ⟨last, stops, _⟩
    have impossible := (settled _).mpr ⟨last, stops, rfl⟩
    rw [run] at impossible
    cases impossible
  | ok session =>
    obtain ⟨stopped, stops, rfl⟩ := (settled session).mp run
    simp only [conclude_session_eq_finished_iff, finish_recount_eq_ok_iff, Session.recount_memory]
    constructor
    · rintro ⟨marks, finished⟩
      exact ⟨stopped, stops, marks, finished⟩
    · rintro ⟨last, stops', marks, finished⟩
      obtain rfl : last = stopped := stops'.2.trans stops.2.symm
      exact ⟨marks, finished⟩

/-- A body that does not begin with two dashes, however it is cut into chunks, can be
finished exactly if it is written as an encoded form. Then it is done beforehand
exactly if its end is marked; of several values of one key the last one counts, and
there are no files. -/
theorem conclude_feedAll_eq_finished_iff (capacity : Nat) (chunks : List Bytes)
    (plain : ¬ dashes <+: chunks.flatten) :
    let ending := conclude ((start ⟨capacity, none⟩).feedAll chunks)
    ((∃ wasDone consumed boundary form, ending = .finished wasDone consumed boundary form) ↔
      ∃ marked pairs, WrittenEncoded marked pairs chunks.flatten) ∧
    ∀ marked pairs, WrittenEncoded marked pairs chunks.flatten →
      ∃ consumed boundary form, ending = .finished marked consumed boundary form ∧
        (∀ key, form.fields[key]? = lastValue? pairs key) ∧ form.files = ∅ := by
  intro ending
  have comes (marked : Bool) (form : Form) :
      (∃ consumed boundary, ending = .finished marked consumed boundary form) ↔
        ∃ pairs, WrittenEncoded marked pairs chunks.flatten ∧ form = empty.addFields pairs :=
    (conclude_feedAll_iff_comesTo capacity chunks).trans
      ((comesTo_start_iff plain).trans comesTo_iff_writtenEncoded)
  refine ⟨⟨?_, ?_⟩, ?_⟩
  · rintro ⟨marked, consumed, boundary, form, finished⟩
    obtain ⟨pairs, written, _⟩ := (comes marked form).mp ⟨consumed, boundary, finished⟩
    exact ⟨marked, pairs, written⟩
  · rintro ⟨marked, pairs, written⟩
    obtain ⟨consumed, boundary, finished⟩ := (comes marked _).mpr ⟨pairs, written, rfl⟩
    exact ⟨marked, consumed, boundary, _, finished⟩
  · intro marked pairs written
    obtain ⟨consumed, boundary, finished⟩ := (comes marked _).mpr ⟨pairs, written, rfl⟩
    refine ⟨consumed, boundary, _, finished, fun key => ?_, rfl⟩
    rw [addFields, getElem?_insertMany, Form.empty, Std.TreeMap.getElem?_emptyc, Option.or_none]

/-- An ampersand may begin a key, and an equals sign may stand in a value. -/
theorem conclude_fourPairs :
    let chunks := ["-=1&a", "=+%4", "1&a=&&=x=", "\r--"].map Bytes.ofText
    let pairs := [("-", "1"), ("a", " A"), ("a", ""), ("&", "x=")]
    ¬ dashes <+: chunks.flatten ∧
      ∃ consumed boundary form,
        conclude ((start ⟨16, none⟩).feedAll chunks) = .finished true consumed boundary form ∧
          (∀ key, form.fields[key]? = lastValue? pairs key) ∧ form.files = ∅ := by
  intro chunks pairs
  have plain : ¬ dashes <+: chunks.flatten := by decide
  have clean {bytes : Bytes} {other : UInt8}
      (all : bytes.all (fun b => 0x20 ≤ b ∧ b ≠ other) = true) :
      ∀ b ∈ bytes, 0x20 ≤ b ∧ b ≠ other := by simpa using all
  have decodes {text : String} {bytes : Bytes} (same : decode bytes = some (Bytes.ofText text))
      (valid : text = Utf8.decodeLossy (Bytes.ofText text)) : Decodes bytes text := ⟨_, same, valid⟩
  have dash : WrittenKey "-" (Bytes.ofText "-") :=
    ⟨by decide, clean rfl, decodes (by decide +kernel) rfl⟩
  have one : WrittenValue "1" (Bytes.ofText "1") := ⟨clean rfl, decodes (by decide +kernel) rfl⟩
  have letter : WrittenKey "a" (Bytes.ofText "a") :=
    ⟨by decide, clean rfl, decodes (by decide +kernel) rfl⟩
  have escaped : WrittenValue " A" (Bytes.ofText "+%41") :=
    ⟨clean rfl, decodes (by decide +kernel) rfl⟩
  have nothing : WrittenValue "" [] := ⟨clean rfl, decodes decode_nil rfl⟩
  have ampersand : WrittenKey "&" (Bytes.ofText "&") :=
    ⟨by decide, clean rfl, decodes (by decide +kernel) rfl⟩
  have equal : WrittenValue "x=" (Bytes.ofText "x=") :=
    ⟨clean rfl, decodes (by decide +kernel) rfl⟩
  have front := WrittenPairs.cons dash one
    (.cons letter escaped (.cons letter nothing (.last ampersand equal)))
  have back : EncodedEnd true (Byte.cr :: Bytes.ofText "--") := .mark _ (.inl rfl)
  have written := WrittenEncoded.pairs front back
  exact ⟨plain, (conclude_feedAll_eq_finished_iff 16 chunks plain).2 true pairs written⟩

end Reader

end Octets.Form
