import Octets.Proofs.Matcher

/-!
# Matchers as scans

Without custom steps a matcher is itself a scan. It sees nothing but the unread bytes, and one
matcher behind another is the one scan behind the other. Where the run begins does not show in
what is taken.

A step that is marked optional takes nothing where it does not apply, and is never the reason
that a run fails.

## Main definitions

* `Scan.nothing`, `Scan.andThen`, `Scan.orNothing` — the scan that takes nothing, one scan behind
  another, and a scan that need not apply
* `Step.isBuiltIn`, `Matcher.IsBuiltIn` — no custom step
* `Step.taken`, `Entry.taken`, `taken` — what is taken of the unread bytes

## Main results

* `Step.apply_eq_accept_taken`, `applyAll_eq_read?_taken` — a run takes what its scan says
* `taken_append` — one matcher behind another
* `matchAt_eq_taken` — matching at a position is scanning what lies behind it
* `matchAt_composes` — matchers one behind another, from any position, with any step optional
-/

namespace Octets

/-! ## Scans one behind another -/

namespace Scan

variable {first second third scan : Scan} {c : Cursor}

/-- The scan that takes nothing, from any bytes. -/
def nothing : Scan := fun _ => some 0

/-- One scan, and another on what it leaves. -/
def andThen (first second : Scan) : Scan := fun bytes =>
  (first bytes).bind fun n => (second (bytes.drop n)).map (n + ·)

/-- A scan, or nothing where it does not apply. -/
def orNothing (scan : Scan) : Scan := fun bytes => some ((scan bytes).getD 0)

theorem andThen_nothing (scan : Scan) : scan.andThen nothing = scan := by
  funext bytes
  cases found : scan bytes <;> simp [andThen, nothing, found]

theorem nothing_andThen (scan : Scan) : nothing.andThen scan = scan := by
  funext bytes
  simp [andThen, nothing]

theorem andThen_assoc (first second third : Scan) :
    (first.andThen second).andThen third = first.andThen (second.andThen third) := by
  funext bytes
  simp only [andThen]
  cases first bytes with
  | none => rfl
  | some n =>
    simp only [Option.bind_some]
    cases second (bytes.drop n) with
    | none => rfl
    | some k => simp [Function.comp_def, Nat.add_assoc]

theorem isBounded_nothing : nothing.IsBounded := by
  intro bytes n taken
  cases taken
  exact Nat.zero_le _

theorem IsBounded.andThen (bounded : first.IsBounded) (bounded' : second.IsBounded) :
    (first.andThen second).IsBounded := by
  intro bytes n taken
  obtain ⟨k, found, taken⟩ := Option.bind_eq_some_iff.mp taken
  obtain ⟨l, found', rfl⟩ := Option.map_eq_some_iff.mp taken
  have inside := bounded _ _ found
  have inside' := bounded' _ _ found'
  rw [List.length_drop] at inside'
  omega

theorem IsBounded.orNothing (bounded : scan.IsBounded) : scan.orNothing.IsBounded := by
  intro bytes n taken
  cases found : scan bytes with
  | none =>
    obtain rfl : 0 = n := by simpa [Scan.orNothing, found] using taken
    exact Nat.zero_le _
  | some k =>
    obtain rfl : k = n := by simpa [Scan.orNothing, found] using taken
    exact bounded _ _ found

/-- A scan that need not apply is the scan itself where it applies, and is not there where it does
not. -/
theorem andThen_orNothing_andThen (first second third : Scan) (bytes : Bytes) :
    (first.andThen second.orNothing).andThen third bytes =
      if (first.andThen second bytes).isSome then (first.andThen second).andThen third bytes
      else first.andThen third bytes := by
  cases found : first bytes with
  | none => simp [andThen, found]
  | some n => cases found' : second (bytes.drop n) <;> simp [andThen, orNothing, found, found']

/-- The ways that two scans lead a cursor, one behind the other. -/
theorem read?_andThen (first second : Scan) (c : Cursor) :
    c.read? (first.andThen second) = (c.read? first).bind (·.read? second) := by
  simp only [Cursor.read?, andThen]
  cases first c.rest with
  | none => rfl
  | some n =>
    simp only [Option.bind_some, Option.map_some, Cursor.rest_advance]
    cases second (c.rest.drop n) <;> simp [Cursor.advance, Nat.add_assoc]

theorem read?_nothing (c : Cursor) : c.read? nothing = some c := rfl

end Scan

namespace Matcher

/-! ## Steps -/

/-- A step that comes with the library. -/
def Step.isBuiltIn : Step → Bool
  | custom _ => false
  | _ => true

/-- What a step takes of the unread bytes. Of a custom step this says nothing. -/
def Step.taken : Step → Scan
  | remainder => fun bytes => some bytes.length
  | finish => fun bytes => if bytes.isEmpty then some 0 else none
  | step => step.scan?.getD fun _ => none

/-- What an entry takes of the unread bytes. -/
def Entry.taken (entry : Entry) : Scan :=
  if entry.isOptional then entry.step.taken.orNothing else entry.step.taken

/-- What the entries take of the unread bytes, one behind the other. -/
def taken (m : Matcher) : Scan := m.entries.foldr (fun entry => entry.taken.andThen) Scan.nothing

/-- All steps come with the library. -/
def IsBuiltIn (m : Matcher) : Prop := ∀ entry ∈ m.entries, entry.step.isBuiltIn = true

instance (m : Matcher) : Decidable m.IsBuiltIn :=
  inferInstanceAs (Decidable (∀ entry ∈ m.entries, entry.step.isBuiltIn = true))

variable {m n : Matcher} {step : Step} {entry : Entry} {c : Cursor} {input : Bytes} {start k : Nat}

theorem Step.isBounded_taken (step : Step) : step.taken.IsBounded := by
  cases step with
  | literal lit => exact Scan.isBounded_literal lit
  | before lit => exact Scan.isBounded_before lit
  | through lit => exact Scan.isBounded_through lit
  | byte b => exact Scan.isBounded_byte _
  | beforeByte b => exact Scan.isBounded_run _
  | any => exact Scan.isBounded_byte _
  | ofClass cls => exact Scan.isBounded_byte cls
  | run cls => exact Scan.isBounded_run cls
  | digits => exact Scan.isBounded_run _
  | entry t => exact Scan.isBounded_entry t
  | beforeEntry t => exact Scan.isBounded_beforeEntry t
  | throughEntry t => exact Scan.isBounded_throughEntry t
  | entries t => exact Scan.isBounded_entries t
  | lead t => exact Scan.isBounded_byte _
  | noLead t => exact Scan.isBounded_byte _
  | suffix endings =>
    intro bytes n taken
    obtain ⟨_, _, rfl⟩ := Option.map_eq_some_iff.mp taken
    exact Nat.le_refl _
  | remainder =>
    intro bytes n taken
    cases taken
    exact Nat.le_refl _
  | finish =>
    intro bytes n taken
    obtain ⟨_, taken⟩ := Option.ite_none_right_eq_some.mp taken
    cases taken
    exact Nat.zero_le _
  | custom f =>
    intro bytes n taken
    cases taken

/-- A step does with a cursor what it takes of the unread bytes. -/
theorem Step.apply_eq_accept_taken (builtIn : step.isBuiltIn = true) (wf : c.WellFormed) :
    step.apply c = c.accept step.taken := by
  cases step with
  | custom f => cases builtIn
  | remainder =>
    obtain ⟨_, ends⟩ := Cursor.isAhead_jumpToEnd wf
    simp only [apply, Step.taken, Cursor.accept, Cursor.read?, Option.map_some, ends]
  | finish =>
    simp only [apply, Step.taken, Cursor.accept, Cursor.read?, Cursor.atEnd_eq_isEmpty_rest wf]
    cases c.rest.isEmpty <;> rfl
  | _ => rfl

/-! ## Entries -/

theorem Entry.isBounded_taken (entry : Entry) : entry.taken.IsBounded := by
  unfold Entry.taken
  split
  · exact entry.step.isBounded_taken.orNothing
  · exact entry.step.isBounded_taken

theorem Entry.apply_eq_read?_taken (builtIn : entry.step.isBuiltIn = true) (wf : c.WellFormed) :
    entry.apply c = c.read? entry.taken := by
  rw [Entry.apply, Step.apply_eq_accept_taken builtIn wf, Entry.taken, Cursor.accept]
  cases entry.isOptional <;> cases found : entry.step.taken c.rest <;>
    simp [Cursor.read?, Scan.orNothing, found, Cursor.advance]

/-! ## Matchers -/

theorem isBounded_taken (m : Matcher) : m.taken.IsBounded := by
  obtain ⟨entries⟩ := m
  induction entries with
  | nil => exact Scan.isBounded_nothing
  | cons entry entries ih => exact entry.isBounded_taken.andThen ih

/-- A run leads to where its scan does. -/
theorem applyAll_eq_read?_taken (builtIn : m.IsBuiltIn) (wf : c.WellFormed) :
    applyAll m.entries c = c.read? m.taken := by
  obtain ⟨entries⟩ := m
  induction entries generalizing c with
  | nil => exact (Scan.read?_nothing c).symm
  | cons entry entries ih =>
    have first := Entry.apply_eq_read?_taken (builtIn entry List.mem_cons_self) wf
    refine Eq.trans ?_ (Scan.read?_andThen entry.taken (taken ⟨entries⟩) c).symm
    show (entry.apply c).bind (applyAll entries) = _
    rw [first]
    cases found : c.read? entry.taken with
    | none => rfl
    | some d =>
      -- No more is taken than is unread, so the next entry is applied inside of the window.
      obtain ⟨k, ahead, _⟩ := Cursor.isAhead_of_read? entry.isBounded_taken found
      have wf' : d.WellFormed := ahead.2 ▸ wf.advance ahead.1
      exact ih wf' fun later member => builtIn later (List.mem_cons_of_mem _ member)

theorem taken_append (m n : Matcher) : (m.append n).taken = m.taken.andThen n.taken := by
  obtain ⟨entries⟩ := m
  induction entries with
  | nil => exact (Scan.nothing_andThen n.taken).symm
  | cons entry entries ih =>
    exact (congrArg entry.taken.andThen ih).trans (Scan.andThen_assoc _ _ _).symm

theorem taken_push (m : Matcher) (step : Step) :
    (m.push step).taken = m.taken.andThen step.taken :=
  (taken_append m ⟨[⟨step, false⟩]⟩).trans <|
    congrArg m.taken.andThen (Scan.andThen_nothing step.taken)

theorem markLast_concat (entries : List Entry) (last : Entry) :
    markLast (entries ++ [last]) = entries ++ [{ last with isOptional := true }] := by
  induction entries with
  | nil => rfl
  | cons first entries ih => cases entries <;> simp_all [markLast]

/-- The step that is marked is the last one. -/
theorem optional_push (m : Matcher) (step : Step) :
    (m.push step).optional = m.append ⟨[⟨step, true⟩]⟩ :=
  congrArg Matcher.mk (markLast_concat m.entries ⟨step, false⟩)

theorem taken_optional_push (m : Matcher) (step : Step) :
    (m.push step).optional.taken = m.taken.andThen step.taken.orNothing := by
  rw [optional_push, taken_append]
  exact congrArg m.taken.andThen (Scan.andThen_nothing step.taken.orNothing)

theorem IsBuiltIn.append (builtIn : m.IsBuiltIn) (builtIn' : n.IsBuiltIn) :
    (m.append n).IsBuiltIn := fun entry member =>
  (List.mem_append.mp member).elim (builtIn entry) (builtIn' entry)

theorem isBuiltIn_single (builtIn : step.isBuiltIn = true) (isOptional : Bool) :
    IsBuiltIn ⟨[⟨step, isOptional⟩]⟩ := by
  intro entry member
  rw [List.mem_singleton.mp member]
  exact builtIn

/-! ## Matches -/

/-- Matching at a position is scanning what lies behind it. -/
theorem matchAt_eq_taken (builtIn : m.IsBuiltIn) (input : Bytes) (start : Nat) :
    m.matchAt input start =
      if start ≤ input.length then m.taken (input.drop start) else none := by
  unfold matchAt
  by_cases inside : start ≤ input.length
  · have wf := Cursor.wellFormed_within input start input.length
    have unread : (Cursor.within input start input.length).rest = input.drop start := by
      simp [Cursor.within, Cursor.rest, Bytes.slice, inside]
    rw [if_neg (Nat.not_lt.mpr inside), if_pos inside, applyAll_eq_read?_taken builtIn wf,
      Cursor.read?, unread]
    cases m.taken (input.drop start) with
    | none => rfl
    | some k => simp [Cursor.within, Cursor.advance, inside]
  · rw [if_pos (Nat.not_le.mp inside), if_neg inside]

/-- A matcher of one step matches what the step takes. -/
theorem matchFront_push_empty (builtIn : step.isBuiltIn = true) (input : Bytes) :
    (empty.push step).matchFront input = step.taken input := by
  have known : (empty.push step).IsBuiltIn := isBuiltIn_single builtIn false
  rw [matchFront, matchAt_eq_taken known, if_pos (Nat.zero_le _), taken_push]
  exact congrFun (Scan.nothing_andThen step.taken) input

/-- Matchers one behind another take what each of them takes, the second one from where the first
has led. -/
theorem matchAt_append (builtIn : m.IsBuiltIn) (builtIn' : n.IsBuiltIn) (input : Bytes)
    (start : Nat) :
    (m.append n).matchAt input start =
      (m.matchAt input start).bind fun k => (n.matchAt input (start + k)).map (k + ·) := by
  simp only [matchAt_eq_taken (builtIn.append builtIn'), matchAt_eq_taken builtIn,
    matchAt_eq_taken builtIn', taken_append, Scan.andThen]
  by_cases inside : start ≤ input.length
  · rw [if_pos inside, if_pos inside]
    cases found : m.taken (input.drop start) with
    | none => rfl
    | some k =>
      -- The second matcher is asked at a position inside of the input, too.
      have bound := m.isBounded_taken _ _ found
      rw [List.length_drop] at bound
      have inside' : start + k ≤ input.length := by omega
      simp only [Option.bind_some, if_pos inside', List.drop_drop]
  · rw [if_neg inside, if_neg inside]
    rfl

/-- What is taken ends in the input. -/
theorem le_length_of_matchAt (builtIn : m.IsBuiltIn) (matched : m.matchAt input start = some k) :
    start + k ≤ input.length := by
  rw [matchAt_eq_taken builtIn, Option.ite_none_right_eq_some] at matched
  obtain ⟨inside, found⟩ := matched
  have bound := m.isBounded_taken _ _ found
  rw [List.length_drop] at bound
  omega

/-- Matching at a position is matching what lies behind it. -/
theorem matchAt_eq_matchFront_drop (builtIn : m.IsBuiltIn) (input : Bytes) (start : Nat) :
    m.matchAt input start =
      if start ≤ input.length then m.matchFront (input.drop start) else none := by
  rw [matchFront, matchAt_eq_taken builtIn, matchAt_eq_taken builtIn, List.drop_zero,
    if_pos (Nat.zero_le _)]

/-- A step that is marked optional is the step itself where it matches, and is not there where it
does not. -/
theorem matchAt_optional_push_append (builtIn : m.IsBuiltIn) (builtIn' : n.IsBuiltIn)
    (known : step.isBuiltIn = true) (input : Bytes) (start : Nat) :
    ((m.push step).optional.append n).matchAt input start =
      if ((m.push step).matchAt input start).isSome then
        ((m.push step).append n).matchAt input start
      else (m.append n).matchAt input start := by
  have plain : (m.push step).IsBuiltIn := builtIn.append (isBuiltIn_single known false)
  have marked : (m.push step).optional.IsBuiltIn := by
    rw [optional_push]
    exact builtIn.append (isBuiltIn_single known true)
  rw [matchAt_eq_taken (marked.append builtIn'), matchAt_eq_taken plain,
    matchAt_eq_taken (plain.append builtIn'), matchAt_eq_taken (builtIn.append builtIn')]
  by_cases inside : start ≤ input.length
  · simp only [if_pos inside, taken_append, taken_push, taken_optional_push]
    exact Scan.andThen_orNothing_andThen _ _ _ _
  · simp only [if_neg inside, ite_self]

/-- Matchers without custom steps compose and shift. Put one behind the other, two of them take
what each takes, the second one from where the first has led. Nothing in front of the position
counts, and nothing behind the input is taken. A step in any place that is marked optional is
the step itself where it matches, and is not there where it does not. -/
theorem matchAt_composes (builtIn : m.IsBuiltIn) (builtIn' : n.IsBuiltIn) (input : Bytes)
    (start : Nat) :
    ((m.append n).matchAt input start =
      (m.matchAt input start).bind fun k => (n.matchAt input (start + k)).map (k + ·)) ∧
    (m.matchAt input start =
      if start ≤ input.length then m.matchFront (input.drop start) else none) ∧
    (∀ k, m.matchAt input start = some k → start + k ≤ input.length) ∧
    ∀ step : Step, step.isBuiltIn = true →
      ((m.push step).optional.append n).matchAt input start =
        if ((m.push step).matchAt input start).isSome then
          ((m.push step).append n).matchAt input start
        else (m.append n).matchAt input start :=
  ⟨matchAt_append builtIn builtIn' input start, matchAt_eq_matchFront_drop builtIn input start,
    fun _ => le_length_of_matchAt builtIn,
    fun _ known => matchAt_optional_push_append builtIn builtIn' known input start⟩

/-- A version with a build behind it, where the dash between them may be missing. -/
theorem matchAt_composes_version :
    let version := (empty.push (.literal (Bytes.ofText "v"))).push .digits
    let build := (empty.push (.ofClass Byte.isAlpha)).push .finish
    let dash := Step.byte 0x2D
    version.IsBuiltIn ∧ build.IsBuiltIn ∧ dash.isBuiltIn = true ∧
      (version.append build).matchAt (Bytes.ofText "..v12a") 2 = some 4 ∧
      ((version.push dash).append build).matchAt (Bytes.ofText "..v12a") 2 = none ∧
      ((version.push dash).optional.append build).matchAt (Bytes.ofText "..v12a") 2 = some 4 := by
  intro version build dash
  have builtIn : version.IsBuiltIn := by decide
  have builtIn' : build.IsBuiltIn := by decide
  have known : dash.isBuiltIn = true := rfl
  obtain ⟨composed, _, _, marked⟩ :=
    matchAt_composes builtIn builtIn' (Bytes.ofText "..v12a") 2
  refine ⟨builtIn, builtIn', known, composed, by decide, ?_⟩
  rw [marked dash known, composed]
  decide

end Matcher

end Octets
