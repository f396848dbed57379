import Mathlib.Algebra.Order.Floor.Div
import Octets.Bytes.Partition

/-!
# Partitions and the two ways to cut

A payload is partitioned into chunks of at least one byte that join to it. Both ways of cutting
partition it. Cutting at arbitrary numbers reaches every partition: a number one less than the
length of its chunk is smaller than what is left, so it is not reduced. Cutting evenly takes
the smallest size with which no more chunks than asked for are needed.

## Main definitions

* `Bytes.IsPartition` — chunks of at least one byte that join to the payload
* `Bytes.AreEven` — chunks of one size, the last of which may be shorter
* `Bytes.sizesOf` — numbers at which given chunks are cut

## Main results

* `Bytes.chunksBySizes_sizesOf` — every partition is cut at some numbers
* `Bytes.length_chunksOf_le`, `Bytes.areEven_chunksOf` — chunks of one size
* `Bytes.isPartition_chunks` — both ways to cut
-/

namespace Octets.Bytes

variable {chunk payload : Bytes} {chunks : List Bytes} {size count : Nat}

/-- Chunks of at least one byte that join to the payload. -/
structure IsPartition (chunks : List Bytes) (payload : Bytes) : Prop where
  nonempty : ∀ chunk ∈ chunks, chunk ≠ []
  flatten : chunks.flatten = payload

/-- All chunks but the last have one size, which the last does not exceed. -/
def AreEven (size : Nat) (chunks : List Bytes) : Prop :=
  (∀ chunk ∈ chunks.dropLast, chunk.length = size) ∧
    ∀ chunk ∈ chunks.getLast?, chunk.length ≤ size

/-- Numbers at which a payload is cut into given chunks. -/
def sizesOf (chunks : List Bytes) : List Nat := chunks.map fun chunk => chunk.length - 1

/-! ## Cutting at numbers -/

theorem nonempty_of_mem_chunksBySizes {sizes : List Nat}
    (member : chunk ∈ chunksBySizes sizes payload) : chunk ≠ [] := by
  fun_induction chunksBySizes sizes payload with
  | case1 => cases member
  | case2 b rest => simp [List.mem_singleton.mp member]
  | case3 size sizes b rest cut ih =>
    obtain first | later := List.mem_cons.mp member
    · simp [first]
    · exact ih later

theorem isPartition_chunksBySizes (sizes : List Nat) (payload : Bytes) :
    IsPartition (chunksBySizes sizes payload) payload :=
  ⟨fun _ => nonempty_of_mem_chunksBySizes, flatten_chunksBySizes sizes payload⟩

/-- Each number cuts at most one chunk off, and the last chunk is what remains. -/
theorem length_chunksBySizes_le (sizes : List Nat) (payload : Bytes) :
    (chunksBySizes sizes payload).length ≤ sizes.length + 1 := by
  fun_induction chunksBySizes sizes payload with
  | case1 => exact Nat.zero_le _
  | case2 => exact Nat.le_refl _
  | case3 size sizes b rest cut ih => exact Nat.succ_le_succ ih

/-- Every partition is cut at some numbers. -/
theorem chunksBySizes_sizesOf (partition : IsPartition chunks payload) :
    chunksBySizes (sizesOf chunks) payload = chunks := by
  obtain ⟨nonempty, rfl⟩ := partition
  induction chunks with
  | nil => simp [chunksBySizes]
  | cons chunk chunks ih =>
    obtain ⟨first, others⟩ := List.forall_mem_cons.mp nonempty
    obtain ⟨b, bytes, rfl⟩ := List.exists_cons_of_ne_nil first
    -- The number is smaller than what is left, so the reduction keeps it.
    have kept : bytes.length % ((bytes ++ chunks.flatten).length + 1) = bytes.length :=
      Nat.mod_eq_of_lt (by rw [List.length_append]; omega)
    rw [sizesOf, List.map_cons, List.flatten_cons, List.cons_append, chunksBySizes]
    simp only [List.length_cons, Nat.add_sub_cancel, kept, List.take_left, List.drop_left]
    exact congrArg _ (ih others)

theorem lt_length_of_mem_sizesOf (partition : IsPartition chunks payload)
    (member : size ∈ sizesOf chunks) : size < payload.length := by
  obtain ⟨chunk, among, rfl⟩ := List.mem_map.mp member
  have positive := List.length_pos_iff.mpr (partition.nonempty chunk among)
  have inside : chunk.length ≤ payload.length :=
    partition.flatten ▸ (List.sublist_flatten_of_mem among).length_le
  omega

/-! ## Cutting evenly -/

theorem nonempty_of_mem_chunksOf (member : chunk ∈ chunksOf size payload) : chunk ≠ [] := by
  fun_induction chunksOf size payload with
  | case1 => cases member
  | case2 b rest ih =>
    obtain first | later := List.mem_cons.mp member
    · simp [first]
    · exact ih later

theorem isPartition_chunksOf (size : Nat) (payload : Bytes) :
    IsPartition (chunksOf size payload) payload :=
  ⟨fun _ => nonempty_of_mem_chunksOf, flatten_chunksOf size payload⟩

/-- No more chunks are cut than are needed to hold the payload. -/
theorem length_chunksOf_le (holds : payload.length ≤ count * size) :
    (chunksOf size payload).length ≤ count := by
  fun_induction chunksOf size payload generalizing count with
  | case1 => exact Nat.zero_le count
  | case2 b rest ih =>
    rw [List.length_cons] at holds ⊢
    cases count with
    | zero => omega
    -- One chunk is cut off, and the others have to hold what is left.
    | succ count =>
      refine Nat.succ_le_succ (ih ?_)
      rw [Nat.succ_mul] at holds
      rw [List.length_drop]
      omega

theorem areEven_singleton (short : chunk.length ≤ size) : AreEven size [chunk] :=
  ⟨List.forall_mem_nil _, fun _ last => Option.some.inj last ▸ short⟩

theorem AreEven.cons (even : AreEven size chunks) (full : chunk.length = size) :
    AreEven size (chunk :: chunks) := by
  cases chunks with
  | nil => exact areEven_singleton full.le
  | cons next others => exact ⟨List.forall_mem_cons.mpr ⟨full, even.1⟩, even.2⟩

theorem areEven_chunksOf (positive : 0 < size) (payload : Bytes) :
    AreEven size (chunksOf size payload) := by
  fun_induction chunksOf size payload with
  | case1 => exact ⟨List.forall_mem_nil _, fun _ last => nomatch last⟩
  | case2 b rest ih =>
    -- A chunk that is not full has taken all there was.
    by_cases short : rest.length < size
    · rw [List.drop_eq_nil_of_le (Nat.le_sub_one_of_lt short), chunksOf]
      exact areEven_singleton (by rw [List.length_cons, List.length_take]; omega)
    · exact ih.cons (by rw [List.length_cons, List.length_take]; omega)

/-- The size is the payload divided by the number of chunks and rounded up. -/
theorem exists_evenChunks {parts : Nat} (positive : 0 < parts) (payload : Bytes) :
    ∃ chunks, evenChunks payload parts = some chunks ∧ IsPartition chunks payload ∧
      chunks.length ≤ parts ∧ AreEven (payload.length ⌈/⌉ parts) chunks := by
  have holds : payload.length ≤ parts * (payload.length ⌈/⌉ parts) :=
    (ceilDiv_le_iff_le_mul positive).mp le_rfl
  refine ⟨chunksOf (payload.length ⌈/⌉ parts) payload, if_neg positive.ne',
    isPartition_chunksOf _ payload, length_chunksOf_le holds, ?_⟩
  cases payload with
  | nil => simp [chunksOf, AreEven]
  | cons b rest =>
    exact areEven_chunksOf (Nat.pos_of_mul_pos_left (Nat.zero_lt_of_lt holds)) _

/-! ## Both ways to cut -/

/-- Cutting at numbers partitions a payload into at most one chunk more than there are numbers,
and every partition comes about in this way, with numbers below the length of the payload.
Cutting it into some parts partitions it into no more than these, all of one size but for the
last, which may be shorter. -/
theorem isPartition_chunks (payload : Bytes) :
    (∀ sizes, IsPartition (chunksBySizes sizes payload) payload ∧
      (chunksBySizes sizes payload).length ≤ sizes.length + 1) ∧
    (∀ chunks, IsPartition chunks payload →
      ∃ sizes, (∀ size ∈ sizes, size < payload.length) ∧
        chunksBySizes sizes payload = chunks) ∧
    ∀ parts, 0 < parts →
      ∃ chunks, evenChunks payload parts = some chunks ∧ IsPartition chunks payload ∧
        chunks.length ≤ parts ∧ AreEven (payload.length ⌈/⌉ parts) chunks := by
  refine ⟨fun sizes => ?_, fun chunks partition => ?_, fun parts positive => ?_⟩
  · exact ⟨isPartition_chunksBySizes sizes payload, length_chunksBySizes_le sizes payload⟩
  · exact ⟨sizesOf chunks, fun _ => lt_length_of_mem_sizesOf partition,
      chunksBySizes_sizesOf partition⟩
  · exact exists_evenChunks positive payload

/-- Eight bytes in four given chunks, and in five even ones, of which four are enough. -/
theorem isPartition_chunks_eightBytes :
    let payload := ofText "abcdefgh"
    let chunks := ["a", "bcd", "e", "fgh"].map ofText
    (IsPartition chunks payload ∧
      ∃ sizes, (∀ size ∈ sizes, size < 8) ∧ chunksBySizes sizes payload = chunks) ∧
    0 < 5 ∧ ∃ even, evenChunks payload 5 = some even ∧ IsPartition even payload ∧
      even.length ≤ 5 ∧ AreEven 2 even := by
  intro payload chunks
  have partition : IsPartition chunks payload := ⟨by decide, by decide⟩
  have size : payload.length ⌈/⌉ 5 = 2 := by decide
  obtain ⟨-, reached, even⟩ := isPartition_chunks payload
  exact ⟨⟨partition, reached chunks partition⟩, by decide, size ▸ even 5 (by decide)⟩

end Octets.Bytes
