import Mathlib.Computability.Language
import Mathlib.Order.Nat
import Octets.Proofs.LeadTable
import Octets.Proofs.Matcher.Composition

/-!
# Shortest matches

A scan that never looks back can still find the shortest match. It does if each part of it
takes as few bytes as it can, and if taking few bytes in one part leaves all chances to the next
one: either the first part has no choice in how many bytes it takes, or the second one may skip
whatever the first has left over. A search for bytes of a fixed length takes as few bytes as it
can, since the first place where they stand is also where the shortest match ends.

## Main definitions

* `prefixLengths` — the lengths of the words of a language at the front of some bytes
* `Scan.TakesLeast`, `Matcher.TakesLeast` — a scan, and a matcher, that take the shortest word of
  a language
* `Resumes` — a language whose words may go on where a shorter word of another ends

## Main results

* `Scan.TakesLeast.andThen` — one such scan behind another
* `Scan.takesLeast_through`, `Scan.takesLeast_throughEntry` — searches
* `Matcher.TakesLeast.push`, `Matcher.TakesLeast.matchFront_eq_some_iff` — one more step, and what
  is matched
-/

namespace Octets

open scoped Computability

variable {K L M : Language UInt8} {bytes w : Bytes} {i j k n : Nat}

/-! ## Words at the front -/

/-- The lengths of the words of a language that stand at the front of some bytes. -/
def prefixLengths (L : Language UInt8) (bytes : Bytes) : Set Nat :=
  {n | n ≤ bytes.length ∧ bytes.take n ∈ L}

theorem mem_prefixLengths_of_isPrefix (front : w <+: bytes) (member : w ∈ L) :
    w.length ∈ prefixLengths L bytes :=
  ⟨front.length_le, List.prefix_iff_eq_take.mp front ▸ member⟩

theorem mem_prefixLengths_iff :
    n ∈ prefixLengths L bytes ↔ ∃ w, w <+: bytes ∧ w ∈ L ∧ w.length = n := by
  constructor
  · rintro ⟨bound, member⟩
    exact ⟨bytes.take n, List.take_prefix n bytes, member, List.length_take_of_le bound⟩
  · rintro ⟨w, front, member, rfl⟩
    exact mem_prefixLengths_of_isPrefix front member

theorem mem_prefixLengths_mul :
    n ∈ prefixLengths (K * L) bytes ↔
      ∃ i ∈ prefixLengths K bytes, ∃ j ∈ prefixLengths L (bytes.drop i), n = i + j := by
  constructor
  · rintro ⟨bound, member⟩
    obtain ⟨u, first, v, second, whole⟩ := Language.mem_mul.mp member
    have front : u ++ v <+: bytes := whole ▸ List.take_prefix n bytes
    obtain ⟨behind, rfl⟩ := front
    have length : u.length + v.length = n := by
      rw [← List.length_append, whole, List.length_take_of_le bound]
    have left : (u ++ v ++ behind).drop u.length = v ++ behind := by
      rw [List.append_assoc, List.drop_left]
    refine ⟨u.length, mem_prefixLengths_of_isPrefix ?_ first, v.length,
      mem_prefixLengths_of_isPrefix ?_ second, length.symm⟩
    · rw [List.append_assoc]
      exact List.prefix_append u _
    · rw [left]
      exact List.prefix_append v _
  · rintro ⟨i, ⟨bound, first⟩, j, ⟨bound', second⟩, rfl⟩
    rw [List.length_drop] at bound'
    refine ⟨by omega, ?_⟩
    rw [List.take_add]
    exact Language.append_mem_mul first second

theorem exists_isLeast_of_mem {S : Set Nat} (member : n ∈ S) : ∃ m, IsLeast S m := by
  classical
  exact ⟨_, Set.Nonempty.isLeast_natFind ⟨n, member⟩⟩

/-! ## Languages one behind another -/

/-- All words of a language have one length. -/
def HasLength (L : Language UInt8) (n : Nat) : Prop := ∀ w ∈ L, w.length = n

/-- Where a word of the first language goes on as a longer one, a word of the second language may
begin at the end of the shorter one, too. -/
def Resumes (K L : Language UInt8) : Prop :=
  ∀ u v w : Bytes, u ∈ K → u ++ v ∈ K → w ∈ L → v ++ w ∈ L

theorem hasLength_singleton (w : Bytes) : HasLength {w} w.length := fun _ same =>
  congrArg List.length same

theorem HasLength.mul (first : HasLength K i) (second : HasLength L j) :
    HasLength (K * L) (i + j) := by
  intro w member
  obtain ⟨u, inside, v, inside', rfl⟩ := Language.mem_mul.mp member
  rw [List.length_append, first u inside, second v inside']

/-- Words of one length leave no choice. -/
theorem HasLength.resumes (fixed : HasLength K k) (L : Language UInt8) : Resumes K L := by
  intro u v w first longer second
  have lengths := (fixed u first).trans (fixed _ longer).symm
  rw [List.length_append] at lengths
  obtain rfl : v = [] := List.eq_nil_of_length_eq_zero (by omega)
  exact second

/-- Whatever has been left over is skipped. -/
theorem resumes_top_mul (K L : Language UInt8) : Resumes K (⊤ * L) := by
  intro u v w _ _ second
  obtain ⟨x, _, y, member, rfl⟩ := Language.mem_mul.mp second
  rw [← List.append_assoc]
  exact Language.append_mem_mul trivial member

/-- Behind the shortest word of the first language stands every word of the second one. -/
theorem Resumes.mem_prefixLengths_mul (resumes : Resumes K L)
    (least : IsLeast (prefixLengths K bytes) i) :
    n ∈ prefixLengths (K * L) bytes ↔ ∃ j ∈ prefixLengths L (bytes.drop i), n = i + j := by
  rw [Octets.mem_prefixLengths_mul]
  constructor
  · rintro ⟨i', first, j', ⟨bound, second⟩, rfl⟩
    -- Any other word is longer by some bytes, and these may come in front of the second word.
    obtain ⟨d, rfl⟩ := Nat.exists_eq_add_of_le (least.2 first)
    have longer := first.2
    rw [List.take_add] at longer
    rw [List.length_drop] at bound
    have bound' := first.1
    refine ⟨d + j', ⟨by rw [List.length_drop]; omega, ?_⟩, Nat.add_assoc _ _ _⟩
    rw [List.take_add, List.drop_drop]
    exact resumes _ _ _ least.1.2 longer second
  · rintro ⟨j, second, rfl⟩
    exact ⟨i, least.1, j, second, rfl⟩

/-! ## Scans -/

namespace Scan

variable {first second scan : Scan}

/-- A scan that takes the shortest word of a language at the front of the unread bytes. -/
def TakesLeast (scan : Scan) (L : Language UInt8) : Prop :=
  ∀ bytes n, scan bytes = some n ↔ IsLeast (prefixLengths L bytes) n

theorem TakesLeast.eq_none_iff (takes : scan.TakesLeast L) :
    scan bytes = none ↔ ∀ n, n ∉ prefixLengths L bytes := by
  constructor
  · intro failed n member
    obtain ⟨m, least⟩ := exists_isLeast_of_mem member
    rw [(takes bytes m).mpr least] at failed
    cases failed
  · intro nowhere
    refine Option.eq_none_iff_forall_ne_some.mpr fun n found => ?_
    exact nowhere n ((takes bytes n).mp found).1

/-- One scan behind another takes the shortest word if no chance is given away in between. -/
theorem TakesLeast.andThen (takes : first.TakesLeast K) (takes' : second.TakesLeast L)
    (resumes : Resumes K L) : (first.andThen second).TakesLeast (K * L) := by
  intro bytes n
  have both : first.andThen second bytes = some n ↔
      ∃ i, first bytes = some i ∧ ∃ j, second (bytes.drop i) = some j ∧ i + j = n := by
    simp only [Scan.andThen, Option.bind_eq_some_iff, Option.map_eq_some_iff]
  rw [both]
  constructor
  · rintro ⟨i, found, j, found', rfl⟩
    have least := (takes bytes i).mp found
    have least' := (takes' _ j).mp found'
    refine ⟨(resumes.mem_prefixLengths_mul least).mpr ⟨j, least'.1, rfl⟩, fun m member => ?_⟩
    obtain ⟨j', member', rfl⟩ := (resumes.mem_prefixLengths_mul least).mp member
    exact Nat.add_le_add_left (least'.2 member') i
  · rintro ⟨member, lower⟩
    obtain ⟨i', member', _⟩ := mem_prefixLengths_mul.mp member
    obtain ⟨i, least⟩ := exists_isLeast_of_mem member'
    obtain ⟨j, member'', rfl⟩ := (resumes.mem_prefixLengths_mul least).mp member
    refine ⟨i, (takes bytes i).mpr least, j, (takes' _ j).mpr ⟨member'', fun j' other => ?_⟩, rfl⟩
    exact Nat.le_of_add_le_add_left
      (lower ((resumes.mem_prefixLengths_mul least).mpr ⟨j', other, rfl⟩))

/-- Where all words have one length, any that is there is the shortest. -/
theorem takesLeast_of_hasLength (fixed : HasLength L k)
    (takes : ∀ bytes n, scan bytes = some n ↔ n ∈ prefixLengths L bytes) : scan.TakesLeast L := by
  intro bytes n
  rw [takes]
  refine ⟨fun member => ⟨member, fun m other => ?_⟩, fun least => least.1⟩
  have length := fixed _ member.2
  have length' := fixed _ other.2
  rw [List.length_take_of_le member.1] at length
  rw [List.length_take_of_le other.1] at length'
  exact Nat.le_of_eq (length.trans length'.symm)

theorem takesLeast_literal (lit : Bytes) : (literal lit).TakesLeast {lit} := by
  refine takesLeast_of_hasLength (hasLength_singleton lit) fun bytes n => ?_
  rw [literal_eq_some, mem_prefixLengths_iff]
  constructor
  · rintro ⟨front, length⟩
    exact ⟨lit, front, rfl, length⟩
  · rintro ⟨w, front, same, length⟩
    obtain rfl : w = lit := same
    exact ⟨front, length⟩

theorem takesLeast_nothing : nothing.TakesLeast 1 := by
  have empty : nothing = literal [] := rfl
  rw [empty]
  exact takesLeast_literal []

theorem takesLeast_byte {cls : UInt8 → Bool} (holds : ∀ w, w ∈ L ↔ ∃ b, cls b = true ∧ w = [b]) :
    (byte cls).TakesLeast L := by
  have fixed : HasLength L 1 := by
    intro w member
    obtain ⟨b, _, rfl⟩ := (holds w).mp member
    rfl
  refine takesLeast_of_hasLength fixed fun bytes n => ?_
  rw [mem_prefixLengths_iff]
  constructor
  · intro found
    obtain ⟨rfl, b, rest, rfl, inside⟩ := byte_eq_some found
    exact ⟨[b], List.prefix_append [b] rest, (holds _).mpr ⟨b, inside, rfl⟩, rfl⟩
  · rintro ⟨w, ⟨rest, rfl⟩, member, rfl⟩
    obtain ⟨b, inside, rfl⟩ := (holds w).mp member
    exact if_pos inside

/-! ## Searches -/

section Searches

variable {sequences : List Bytes} (lists : ∀ w, w ∈ L ↔ w ∈ sequences) (fixed : HasLength L k)
include lists

theorem not_mem_of_nowhere (nowhere : ∀ i, ∀ w ∈ sequences, ¬ w <+: bytes.drop i) (n : Nat) :
    n ∉ prefixLengths (⊤ * L) bytes := by
  intro member
  obtain ⟨i, _, length, found, rfl⟩ := mem_prefixLengths_mul.mp member
  obtain ⟨v, front, other, rfl⟩ := mem_prefixLengths_iff.mp found
  exact nowhere i v ((lists v).mp other) front

include fixed

/-- The first place where one of several sequences of one length stands is where the shortest
match ends that may skip any bytes. -/
theorem isLeast_of_standsFirst (first : StandsFirst sequences bytes i w) :
    IsLeast (prefixLengths (⊤ * L) bytes) (i + w.length) := by
  have inside : i ≤ bytes.length := by
    refine Nat.le_of_not_lt fun outside => ?_
    have stands := first.isPrefix
    rw [List.drop_eq_nil_of_le (Nat.le_of_lt outside), List.prefix_nil] at stands
    exact first.2 0 (Nat.zero_lt_of_lt outside) w first.mem (stands ▸ List.nil_prefix)
  refine ⟨mem_prefixLengths_mul.mpr ⟨i, ⟨inside, trivial⟩, w.length, ?_, rfl⟩, fun n member => ?_⟩
  · exact mem_prefixLengths_of_isPrefix first.isPrefix ((lists w).mpr first.mem)
  · obtain ⟨j, _, length, found, rfl⟩ := mem_prefixLengths_mul.mp member
    obtain ⟨v, front, other, rfl⟩ := mem_prefixLengths_iff.mp found
    -- Both are equally long, so the one that ends first also begins first.
    rw [fixed w ((lists w).mpr first.mem), fixed v other]
    refine Nat.add_le_add_right (Nat.le_of_not_lt fun before => ?_) k
    exact first.2 j before v ((lists v).mp other) front

/-- A search for the first of several sequences of one length takes as little as it can. -/
theorem takesLeast_of_search
    (found : ∀ bytes i w, StandsFirst sequences bytes i w → scan bytes = some (i + w.length))
    (absent : ∀ bytes, (∀ i, ∀ w ∈ sequences, ¬ w <+: bytes.drop i) → scan bytes = none) :
    scan.TakesLeast (⊤ * L) := by
  intro bytes n
  by_cases somewhere : ∃ i w, StandsFirst sequences bytes i w
  · obtain ⟨i, w, first⟩ := somewhere
    have least := isLeast_of_standsFirst lists fixed first
    rw [found bytes i w first, Option.some.injEq]
    exact ⟨fun same => same ▸ least, fun other => least.unique other⟩
  · have nowhere (i : Nat) (w : Bytes) (listed : w ∈ sequences) : ¬ w <+: bytes.drop i :=
      fun stands => somewhere (exists_standsFirst listed stands)
    rw [absent bytes nowhere]
    exact ⟨(nomatch ·), fun least => absurd least.1 (not_mem_of_nowhere lists nowhere n)⟩

end Searches

theorem before_of_first {lit : Bytes} (front : ∀ h < i, ¬ lit <+: bytes.drop h)
    (there : lit <+: bytes.drop i) : before lit bytes = some i := by
  induction i generalizing bytes with
  | zero =>
    cases bytes with
    | nil => simp [before, List.prefix_nil.mp there]
    | cons b rest => exact if_pos (List.isPrefixOf_iff_prefix.mpr there)
  | succ i ih =>
    have here : ¬ lit <+: bytes := front 0 (Nat.succ_pos i)
    cases bytes with
    | nil => exact absurd there here
    | cons b rest =>
      have further := ih (fun h less => front (h + 1) (Nat.succ_lt_succ less)) there
      rw [before, if_neg (mt List.isPrefixOf_iff_prefix.mp here), further]
      rfl

theorem takesLeast_through (lit : Bytes) : (through lit).TakesLeast (⊤ * {lit}) := by
  have alone (w : Bytes) : w ∈ ({lit} : Language UInt8) ↔ w ∈ [lit] := List.mem_singleton.symm
  refine takesLeast_of_search alone (hasLength_singleton lit) (fun bytes i w first => ?_)
    fun bytes nowhere => ?_
  · obtain rfl : w = lit := List.mem_singleton.mp first.mem
    have front (h : Nat) (less : h < i) : ¬ w <+: bytes.drop h :=
      first.2 h less w List.mem_cons_self
    rw [through, before_of_first front first.isPrefix]
    rfl
  · have absent : before lit bytes = none :=
      Option.eq_none_iff_forall_ne_some.mpr fun i found =>
        nowhere i lit List.mem_cons_self (before_eq_some found).2
    rw [through, absent]
    rfl

/-- In a table of sequences of one length, it does not matter which of them is found. -/
theorem takesLeast_throughEntry {t : LeadTable} {sequences : List Bytes} (holds : t.Holds sequences)
    (nonempty : ∀ w ∈ sequences, w ≠ []) (lists : ∀ w, w ∈ L ↔ w ∈ sequences)
    (fixed : HasLength L k) : (throughEntry t).TakesLeast (⊤ * L) :=
  takesLeast_of_search lists fixed
    (fun _ _ _ first => (holds.search_of_standsFirst nonempty first).1)
    fun _ nowhere => (holds.search_of_none nonempty nowhere).1

end Scan

/-! ## Matchers -/

namespace Matcher

/-- A matcher without custom steps that takes the shortest word of a language. -/
def TakesLeast (m : Matcher) (L : Language UInt8) : Prop := m.IsBuiltIn ∧ m.taken.TakesLeast L

variable {m : Matcher} {step : Step} {input : Bytes}

theorem takesLeast_empty : empty.TakesLeast 1 :=
  ⟨fun _ => (nomatch ·), Scan.takesLeast_nothing⟩

/-- One more step takes the shortest word if no chance has been given away in front of it. -/
theorem TakesLeast.push (takes : m.TakesLeast K) (builtIn : step.isBuiltIn = true)
    (takes' : step.taken.TakesLeast L) (resumes : Resumes K L) :
    (m.push step).TakesLeast (K * L) := by
  refine ⟨takes.1.append (isBuiltIn_single builtIn false), ?_⟩
  rw [taken_push]
  exact takes.2.andThen takes' resumes

theorem TakesLeast.matchFront_eq_some_iff (takes : m.TakesLeast L) :
    m.matchFront input = some n ↔ IsLeast (prefixLengths L input) n := by
  rw [matchFront, matchAt_eq_taken takes.1, if_pos (Nat.zero_le _)]
  exact takes.2 input n

theorem TakesLeast.matchFront_eq_none_iff (takes : m.TakesLeast L) :
    m.matchFront input = none ↔ ∀ n, n ∉ prefixLengths L input := by
  rw [matchFront, matchAt_eq_taken takes.1, if_pos (Nat.zero_le _)]
  exact takes.2.eq_none_iff

/-- The rest of the input is taken behind any match. -/
theorem TakesLeast.matchFront_push_remainder (takes : m.TakesLeast L) (input : Bytes) :
    (m.push .remainder).matchFront input = (m.matchFront input).map fun _ => input.length := by
  have builtIn : (m.push .remainder).IsBuiltIn := takes.1.append (isBuiltIn_single rfl false)
  rw [matchFront, matchFront, matchAt_eq_taken builtIn, matchAt_eq_taken takes.1,
    if_pos (Nat.zero_le _), if_pos (Nat.zero_le _), taken_push, List.drop_zero]
  cases found : m.taken input with
  | none => simp [Scan.andThen, found]
  | some n =>
    have bound := m.isBounded_taken _ _ found
    simp [Scan.andThen, found, Step.taken, Nat.add_sub_cancel' bound]

end Matcher

end Octets
