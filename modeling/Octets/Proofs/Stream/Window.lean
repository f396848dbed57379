import Octets.Cursor
import Octets.Form.Body
import Octets.Proofs.Stream.Chunking
import Octets.Request.Head

/-!
# Windows of a buffer

A window of a buffer is fed as the next chunk of a stream. A reader without an open
token sees nothing but the window, and so does any reader if the window begins at the
front of the buffer; only the index of a body counts from there. An open token goes on
at the front of the buffer, though, so the bytes in front of a window that begins
further on become part of it.

## Main definitions

* `Head.Reader.extend`, `Form.Reader.extend` — a reader whose open token has more
  bytes
* `Head.Reader.countFrom` — a feeding whose buffer had more bytes in front

## Main results

* `Grammar.feedWindow_eq_feed_extend` — what becomes of the bytes in front of a window
* `feedWindow_eq_feed_rest` — when a window is fed as its bytes are
* `feedWindow_ne_feed_rest` — bytes from outside a window that end up in a token
-/

namespace Octets

namespace Stream.Grammar

variable {σ ε : Type} {g : Grammar σ ε} {s : Session σ}

theorem feedWindow_of_done (done : g.isDone s.memory = true) (buffer : Bytes) (start stop : Nat) :
    g.feedWindow s buffer start stop = (s, .ok true) := by
  simp [feedWindow, done]

/-- The open token goes on at the front of the buffer. -/
theorem feedWindow_eq_feed_extend (pending : g.isDone s.memory = false) (buffer : Bytes)
    (start stop : Nat) :
    let window := Cursor.within buffer start stop
    g.feedWindow s buffer start stop =
      g.feed (s.extend (buffer.take window.pos)) window.rest := by
  intro window
  have pending' : g.isDone (s.extend (buffer.take window.pos)).memory = false := pending
  have whole : window.rest.slice 0 window.rest.length = window.rest := Bytes.slice_all _
  simp only [feed, feedWindow, pending, pending', Bool.false_eq_true, if_false, Nat.min_self,
    Nat.zero_min, List.take_zero, Session.extend_nil, whole]
  rfl

end Stream.Grammar

/-- Nothing is added to an open token if there is none or nothing to add. -/
theorem Stream.Session.extend_of_closed_or_front {σ : Type} {s : Session σ} {buffer : Bytes}
    {n : Nat} (clear : s.token = none ∨ n = 0) : s.extend (buffer.take n) = s := by
  obtain closed | rfl := clear
  · obtain ⟨memory, token, limit, consumed⟩ := s
    subst closed
    rfl
  · rw [List.take_zero, Session.extend_nil]

/-! ## Request heads -/

namespace Head.Reader

/-- The reader whose open token, if there is one, has more bytes. -/
def extend (r : Reader) (bytes : Bytes) : Reader := { r with session := r.session.extend bytes }

/-- The feeding if its buffer had so many bytes more in front. They count for the
index of a body that is reached. -/
def countFrom (n : Nat) (run : Reader × Except Failure Bool) : Reader × Except Failure Bool :=
  match run.2 with
  | .ok true => ({ run.1 with bodyIndex := run.1.bodyIndex.map (n + ·) }, run.2)
  | _ => run

variable {r : Reader}

theorem feedWindow_of_done (done : r.isDone = true) (buffer : Bytes) (start stop : Nat) :
    r.feedWindow buffer start stop = (r, .ok true) := by
  simp [feedWindow, done]

/-- The open token goes on at the front of the buffer, and so does the count up to the
body. -/
theorem feedWindow_eq_countFrom (pending : r.isDone = false) (buffer : Bytes)
    (start stop : Nat) :
    let window := Cursor.within buffer start stop
    r.feedWindow buffer start stop =
      countFrom window.pos ((r.extend (buffer.take window.pos)).feed window.rest) := by
  intro window
  have pending' : (r.extend (buffer.take window.pos)).isDone = false := pending
  have fed : grammar.feedWindow r.session buffer start stop =
      grammar.feedWindow (r.extend (buffer.take window.pos)).session window.rest 0
        window.rest.length :=
    Stream.Grammar.feedWindow_eq_feed_extend pending buffer start stop
  simp only [feed, feedWindow, pending, pending', Bool.false_eq_true, if_false, fed]
  -- Only a completed head leaves an index.
  rcases grammar.feedWindow (r.extend (buffer.take window.pos)).session window.rest 0
    window.rest.length with ⟨session, failure | answer⟩
  · rfl
  · cases answer with
    | false => rfl
    | true => simp [countFrom, extend, Stream.Session.extend, window, Cursor.within]

/-- Where nothing can be added to an open token, a window is fed as its bytes are. -/
theorem feedWindow_of_clear {buffer : Bytes} {start stop : Nat}
    (clear : r.session.token = none ∨ (Cursor.within buffer start stop).pos = 0) :
    let window := Cursor.within buffer start stop
    r.feedWindow buffer start stop =
      if r.isDone then r.feed window.rest else countFrom window.pos (r.feed window.rest) := by
  intro window
  cases done : r.isDone with
  | true => exact (feedWindow_of_done done ..).trans (feedWindow_of_done done ..).symm
  | false =>
    have same : r.extend (buffer.take window.pos) = r := by
      rw [extend, Stream.Session.extend_of_closed_or_front clear]
    rw [feedWindow_eq_countFrom done, same]
    rfl

end Head.Reader

/-! ## Form bodies -/

namespace Form.Reader

/-- The reader whose open token, if there is one, has more bytes. -/
def extend (r : Reader) (bytes : Bytes) : Reader := ⟨r.session.extend bytes⟩

variable {r : Reader}

/-- The open token goes on at the front of the buffer. -/
theorem feedWindow_eq_feed (pending : r.isDone = false) (buffer : Bytes) (start stop : Nat) :
    let window := Cursor.within buffer start stop
    r.feedWindow buffer start stop = (r.extend (buffer.take window.pos)).feed window.rest := by
  intro window
  have fed := Stream.Grammar.feedWindow_eq_feed_extend (g := grammar) pending buffer start stop
  rw [feedWindow, fed]
  rfl

/-- Where nothing can be added to an open token, a window is fed as its bytes are. -/
theorem feedWindow_of_clear {buffer : Bytes} {start stop : Nat}
    (clear : r.session.token = none ∨ (Cursor.within buffer start stop).pos = 0) :
    r.feedWindow buffer start stop = r.feed (Cursor.within buffer start stop).rest := by
  cases done : r.isDone with
  | true =>
    rw [feed, feedWindow, feedWindow, Stream.Grammar.feedWindow_of_done done,
      Stream.Grammar.feedWindow_of_done done]
  | false =>
    have same : r.extend (buffer.take (Cursor.within buffer start stop).pos) = r := by
      rw [extend, Stream.Session.extend_of_closed_or_front clear]
    rw [feedWindow_eq_feed done, same]

end Form.Reader

/-! ## Both kinds of readers -/

namespace Stream

/-- A window is fed as its bytes are, but for the bytes in front of it: they become
part of an open token, and the index of a body counts them. Without an open token, or
if there are no bytes in front, nothing but the window is seen. -/
theorem feedWindow_eq_feed_rest (buffer : Bytes) (start stop : Nat) :
    let window := Cursor.within buffer start stop
    let front := buffer.take window.pos
    (∀ r : Head.Reader,
      (r.isDone = false →
        r.feedWindow buffer start stop =
          Head.Reader.countFrom window.pos ((r.extend front).feed window.rest)) ∧
      (r.session.token = none ∨ window.pos = 0 →
        r.feedWindow buffer start stop =
          if r.isDone then r.feed window.rest
          else Head.Reader.countFrom window.pos (r.feed window.rest))) ∧
    ∀ r : Form.Reader,
      (r.isDone = false →
        r.feedWindow buffer start stop = (r.extend front).feed window.rest) ∧
      (r.session.token = none ∨ window.pos = 0 →
        r.feedWindow buffer start stop = r.feed window.rest) := by
  intro window front
  refine ⟨fun r => ⟨fun pending => ?_, fun clear => ?_⟩,
    fun r => ⟨fun pending => ?_, fun clear => ?_⟩⟩
  · exact Head.Reader.feedWindow_eq_countFrom pending buffer start stop
  · exact Head.Reader.feedWindow_of_clear clear
  · exact Form.Reader.feedWindow_eq_feed pending buffer start stop
  · exact Form.Reader.feedWindow_of_clear clear

/-- A head whose method has been read goes on in a window as in a chunk. A form inside
a value goes on as if more of the value had been read. -/
theorem feedWindow_behind_and_inside_token :
    let buffer := Bytes.ofText "xx/ H\n\nyy"
    let behind := ((Head.Reader.start ⟨16, none⟩).feed (Bytes.ofText "GET ")).1
    let inside := ((Form.Reader.start ⟨16, none⟩).feed (Bytes.ofText "a=1")).1
    (behind.session.token = none ∧
      behind.feedWindow buffer 2 7 =
        Head.Reader.countFrom 2 (behind.feed (Bytes.ofText "/ H\n\n"))) ∧
    inside.isDone = false ∧
      inside.feedWindow buffer 2 5 =
        (inside.extend (Bytes.ofText "xx")).feed (Bytes.ofText "/ H") := by
  intro buffer behind inside
  have pending : behind.isDone = false := rfl
  have pending' : inside.isDone = false := by decide +kernel
  have line : (Cursor.within buffer 2 7).rest = Bytes.ofText "/ H\n\n" := rfl
  have value : (Cursor.within buffer 2 5).rest = Bytes.ofText "/ H" := rfl
  refine ⟨⟨rfl, ?_⟩, pending', ?_⟩
  · rw [((feedWindow_eq_feed_rest buffer 2 7).1 behind).2 (.inl rfl), pending, line]
    rfl
  · rw [((feedWindow_eq_feed_rest buffer 2 5).2 inside).1 pending', value]
    rfl

/-- A token that is open gets the bytes in front of the window: the method of a head,
or a value of a form. -/
theorem feedWindow_ne_feed_rest :
    let head := ((Head.Reader.start ⟨16, none⟩).feed (Bytes.ofText "GE")).1
    let form := ((Form.Reader.start ⟨16, none⟩).feed (Bytes.ofText "a=1")).1
    let line := Bytes.ofText "xxT /p HTTP/1.1\r\n\r\n"
    let value := Bytes.ofText "xx2\r"
    ((head.feedWindow line 2 19).1.head.method = "GExxT" ∧
      (head.feed (Cursor.within line 2 19).rest).1.head.method = "GET") ∧
    (form.feedWindow value 2 4).1.form.get? "a" = some "1xx2" ∧
      (form.feed (Cursor.within value 2 4).rest).1.form.get? "a" = some "12" := by
  decide +kernel

end Stream

end Octets
