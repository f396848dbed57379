import Octets.Proofs.Lexer.Lines
import Octets.Stream.Buffer

/-!
# Buffers as views of a stream

A stream buffer shows the end of the stream that it has followed. The indices of its bytes
change when a chunk arrives, since the bytes in front of the open token are dropped then, but
their places in the stream do not: a chunk moves neither the open token nor the position, and
they go where they are committed to. So a reader sees every byte from its open token on, once
and in order.

## Main definitions

* `Buffer.Follows` — the buffers that the chunks of a stream leave, with commits in between
* `Buffer.place` — where in the stream a retained byte stands

## Main results

* `Buffer.Follows.isSuffix`, `Buffer.Follows.wellFormed` — what any number of calls keeps
* `Buffer.place_append_start`, `Buffer.place_append_pos` — a chunk moves nothing
* `Buffer.slides` — what a buffer shows of its stream
-/

namespace Octets.Stream.Buffer

variable {b : Buffer} {stream chunk : Bytes} {i j : Nat}

/-- Token start, position and the length of the retained bytes ascend. -/
def WellFormed (b : Buffer) : Prop := b.start ≤ b.pos ∧ b.pos ≤ b.bytes.length

/-- The buffers that have followed a stream, chunk by chunk. In between a reader may commit any
indices of the retained bytes, as often as it likes. -/
inductive Follows : Bytes → Buffer → Prop
  | empty : Follows [] .empty
  | append {stream : Bytes} {b : Buffer} (chunk : Bytes) :
      Follows stream b → Follows (stream ++ chunk) (b.append chunk)
  | commit {stream : Bytes} {b : Buffer} {i j : Nat} :
      Follows stream b → i ≤ j → j ≤ b.bytes.length → Follows stream (b.commit i j)

/-- Where in the stream the retained byte with an index stands. -/
def place (b : Buffer) (stream : Bytes) (i : Nat) : Nat := stream.length - b.bytes.length + i

/-! ## Calls -/

theorem WellFormed.append (wf : b.WellFormed) (chunk : Bytes) : (b.append chunk).WellFormed := by
  obtain ⟨ascend, bound⟩ := wf
  refine ⟨Nat.zero_le _, ?_⟩
  simp only [Buffer.append, List.length_append, List.length_drop]
  omega

theorem commit_eq (ascend : i ≤ j) (bound : j ≤ b.bytes.length) :
    b.commit i j = ⟨b.bytes, i, j⟩ := by
  simp only [commit, Nat.min_eq_left bound, Nat.min_eq_left (Nat.le_trans ascend bound),
    Nat.max_eq_right ascend]

theorem cursor_eq (wf : b.WellFormed) :
    b.cursor = ⟨b.bytes, b.start, b.pos, b.bytes.length, none⟩ := by
  simp only [cursor, Cursor.seek, Cursor.ofBytes, Nat.min_eq_left wf.2]

/-- Only bytes in front of the open token are dropped. -/
theorem isSuffix_append (suffix : b.bytes <:+ stream) (chunk : Bytes) :
    (b.append chunk).bytes <:+ stream ++ chunk := by
  obtain ⟨front, rfl⟩ := suffix
  refine ⟨front ++ b.bytes.take b.start, ?_⟩
  rw [append, List.append_assoc, ← List.append_assoc _ _ chunk, List.take_append_drop,
    List.append_assoc]

theorem Follows.isSuffix (follows : Follows stream b) : b.bytes <:+ stream := by
  induction follows with
  | empty => exact List.suffix_refl []
  | append chunk _ ih => exact isSuffix_append ih chunk
  | commit _ _ _ ih => exact ih

theorem Follows.wellFormed (follows : Follows stream b) : b.WellFormed := by
  induction follows with
  | empty => exact ⟨Nat.le_refl _, Nat.le_refl _⟩
  | append chunk _ ih => exact ih.append chunk
  | commit _ ascend bound _ =>
    rw [commit_eq ascend bound]
    exact ⟨ascend, bound⟩

/-! ## Places in the stream -/

/-- From its place on, the stream goes on as the retained bytes do. -/
theorem drop_place (suffix : b.bytes <:+ stream) (i : Nat) :
    stream.drop (b.place stream i) = b.bytes.drop i := by
  obtain ⟨front, rfl⟩ := suffix
  rw [place, List.length_append, Nat.add_sub_cancel, List.drop_length_add_append]

theorem slice_place (suffix : b.bytes <:+ stream) (bound : j ≤ b.bytes.length) :
    stream.slice (b.place stream i) (b.place stream j) = b.bytes.slice i j := by
  obtain ⟨front, rfl⟩ := suffix
  rw [place, place, List.length_append, Nat.add_sub_cancel,
    ← Bytes.slice_append_append front [] bound, List.append_nil]

theorem place_le_length (suffix : b.bytes <:+ stream) (bound : i ≤ b.bytes.length) :
    b.place stream i ≤ stream.length := by
  have := suffix.length_le
  unfold place
  omega

/-- A chunk does not move the open token. -/
theorem place_append_start (suffix : b.bytes <:+ stream) (wf : b.WellFormed) (chunk : Bytes) :
    (b.append chunk).place (stream ++ chunk) (b.append chunk).start = b.place stream b.start := by
  have := suffix.length_le
  obtain ⟨_, _⟩ := wf
  simp only [place, append, List.length_append, List.length_drop]
  omega

/-- A chunk does not move the position. -/
theorem place_append_pos (suffix : b.bytes <:+ stream) (wf : b.WellFormed) (chunk : Bytes) :
    (b.append chunk).place (stream ++ chunk) (b.append chunk).pos = b.place stream b.pos := by
  have := suffix.length_le
  obtain ⟨_, _⟩ := wf
  simp only [place, append, List.length_append, List.length_drop]
  omega

/-- A buffer shows the end of the stream that it has followed. The open token and the position
have places in the stream, and the next cursor sees the bytes between them as its token and all
others behind them as unread. A chunk moves neither place, and a commit moves them to the places
of the indices that are handed back, so that the next cursor stands where the last one stood. -/
theorem slides (follows : Follows stream b) :
    let start := b.place stream b.start
    let pos := b.place stream b.pos
    start ≤ pos ∧ pos ≤ stream.length ∧
      b.bytes <:+ stream ∧ b.pending = stream.drop start ∧
      b.cursor.token = stream.slice start pos ∧ b.cursor.rest = stream.drop pos ∧
      (∀ chunk,
        let after := b.append chunk
        after.place (stream ++ chunk) after.start = start ∧
          after.place (stream ++ chunk) after.pos = pos) ∧
      (∀ i j, i ≤ j → j ≤ b.bytes.length →
        let after := b.commit i j
        after.place stream after.start = b.place stream i ∧
          after.place stream after.pos = b.place stream j) ∧
      ∀ c : Cursor, c.bytes = b.bytes → c.WellFormed →
        (b.commit c.start c.pos).cursor =
          { c with stop := b.bytes.length, milestone := none } := by
  intro start pos
  have suffix := follows.isSuffix
  have wf := follows.wellFormed
  refine ⟨Nat.add_le_add_left wf.1 _, place_le_length suffix wf.2, suffix,
    (drop_place suffix b.start).symm, ?_, ?_, fun chunk => ⟨?_, ?_⟩, fun i j ascend bound => ?_,
    fun c same inside => ?_⟩
  · rw [cursor_eq wf, slice_place suffix wf.2]
    rfl
  · rw [cursor_eq wf, drop_place suffix, Cursor.rest, Bytes.slice, List.take_length]
  · exact place_append_start suffix wf chunk
  · exact place_append_pos suffix wf chunk
  · rw [commit_eq ascend bound]
    exact ⟨rfl, rfl⟩
  · obtain ⟨ascend, within, bound⟩ := inside
    have bound' : c.pos ≤ b.bytes.length := Nat.le_trans within (same ▸ bound)
    rw [commit_eq ascend bound', cursor_eq ⟨ascend, bound'⟩, ← same]

/-- A token in two chunks, with an empty one in between. The bytes in front of it are dropped with
the empty chunk, and it is committed again before the next one. -/
theorem slides_tokenInPieces :
    let first := (Buffer.empty.append (Bytes.ofText "alpha\nbe")).commit 6 8
    let second := (first.append []).commit 0 1
    let third := second.append (Bytes.ofText "ta\ngam")
    let stream := Bytes.ofText "alpha\nbe" ++ [] ++ Bytes.ofText "ta\ngam"
    Follows stream third ∧ third.place stream third.start = 6 ∧
      third.cursor.token = stream.slice 6 7 ∧ third.cursor.rest = stream.drop 7 := by
  intro first second third stream
  have opened : Follows (Bytes.ofText "alpha\nbe") first :=
    .commit (.append _ .empty) (by decide) (by decide)
  have kept : Follows (Bytes.ofText "alpha\nbe" ++ []) second :=
    .commit (.append [] opened) (by decide) (by decide)
  have follows : Follows stream third := .append _ kept
  obtain ⟨_, _, _, _, token, rest, _⟩ := slides follows
  exact ⟨follows, rfl, token, rest⟩

end Octets.Stream.Buffer
