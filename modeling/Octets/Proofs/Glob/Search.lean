import Octets.Proofs.Glob.Compiling
import Octets.Proofs.Matcher.Shortest

/-!
# Patterns that search

A pattern of literals, question marks and sets, behind which come stars, each with a literal or a
set to look for. Its matcher never goes back, and yet it misses nothing: it matches wherever a
word of the language of the pattern stands at the front of the input, and it takes the shortest
one. If the pattern ends in a star, all of the input is taken instead.

In front of the first star the matcher has no choice, since all words are equally long there.
Behind it every step is a search, which may as well begin at the earliest place.

## Main definitions

* `Item.IsPlain`, `Item.IsSought` — what may stand in front of the stars, and what behind one
* `Glob.searching` — the items of such a pattern
* `Assembly.IsFront`, `Assembly.IsSearching` — what an assembly stands for in front of the stars,
  and behind some of them

## Main results

* `parse_searching` — what such a pattern matches
-/

namespace Octets.Glob

/-! ## Searches -/

/-- An item that may stand in front of the stars. -/
def Item.IsPlain : Item → Prop
  | literal _ | anyByte | set _ _ => True
  | anyRun | alternation _ => False

/-- An item that is looked for behind a star. -/
def Item.IsSought : Item → Prop
  | literal text => text ≠ []
  | set _ _ => True
  | anyByte | anyRun | alternation _ => False

/-- Plain items, then stars and what each of them looks for, and perhaps a star at the end. -/
def searching (front sought : List Item) (last : Bool) : List Item :=
  front ++ ((sought.flatMap fun item => [.anyRun, item]) ++ if last then [.anyRun] else [])

variable {a : Assembly} {K L : Language UInt8} {item : Item} {front sought : List Item}
  {last : Bool}

theorem languageOf_cons (item : Item) (items : List Item) :
    languageOf (item :: items) = item.language * languageOf items := by
  simp [languageOf]

theorem languageOf_append (items others : List Item) :
    languageOf (items ++ others) = languageOf items * languageOf others := by
  simp [languageOf]

theorem isApart_searching (plain : ∀ item ∈ front, item.IsPlain)
    (looked : ∀ item ∈ sought, item.IsSought) : IsApart (searching front sought last) := by
  unfold searching
  induction front with
  | nil =>
    induction sought with
    | nil => cases last <;> simp [IsApart]
    | cons item sought ih =>
      have begins : item.Begins ∧ item ≠ .anyRun := by
        have here := looked item List.mem_cons_self
        cases item <;> simp_all [Item.IsSought, Item.Begins]
      refine List.isChain_cons.mpr ⟨?_, List.isChain_cons.mpr ⟨?_, ih fun other member =>
        looked other (List.mem_cons_of_mem _ member)⟩⟩
      · rintro _ ⟨⟩ _
        exact begins.1
      · exact fun _ _ star => absurd star begins.2
  | cons item front ih =>
    refine List.isChain_cons.mpr ⟨fun _ _ star => ?_, ih fun other member =>
      plain other (List.mem_cons_of_mem _ member)⟩
    have here := plain item List.mem_cons_self
    rw [star] at here
    exact here.elim

/-! ## Steps -/

theorem hasLength_oneByte (property : UInt8 → Prop) : HasLength (oneByte property) 1 := by
  rintro w ⟨b, _, rfl⟩
  rfl

theorem takesLeast_class {cls : UInt8 → Bool} {property : UInt8 → Prop}
    (holds : ∀ b, cls b = true ↔ property b) : (Scan.byte cls).TakesLeast (oneByte property) :=
  Scan.takesLeast_byte fun _ => exists_congr fun b => and_congr_left fun _ => (holds b).symm

/-- A search for a byte of a class. -/
theorem takesLeast_throughClass {bytes : Bytes} {property : UInt8 → Prop}
    (lists : ∀ b, b ∈ bytes ↔ property b) :
    (Scan.throughEntry (.ofClass bytes)).TakesLeast (⊤ * oneByte property) := by
  have additions : LeadTable.ofClass bytes = .ofAdditions (bytes.map .lead) := by
    rw [LeadTable.ofAdditions, List.foldl_map]
    rfl
  have holds := LeadTable.holds_ofAdditions (bytes.map .lead)
  rw [← additions] at holds
  refine Scan.takesLeast_throughEntry holds (fun w => LeadTable.ne_nil_of_mem_listed) (fun w => ?_)
    (hasLength_oneByte property)
  have listed : w ∈ LeadTable.listed (bytes.map .lead) ↔ ∃ b ∈ bytes, w = [b] := by
    constructor
    · intro member
      obtain ⟨_, added, rfl⟩ := List.mem_map.mp (List.mem_filter.mp member).1
      obtain ⟨b, inside, rfl⟩ := List.mem_map.mp added
      exact ⟨b, inside, rfl⟩
    · rintro ⟨b, inside, rfl⟩
      exact List.mem_filter.mpr ⟨List.mem_map_of_mem (List.mem_map_of_mem inside), rfl⟩
  rw [listed]
  exact exists_congr fun b => and_congr_left fun _ => (lists b).symm

theorem takesLeast_any : Matcher.Step.any.taken.TakesLeast Item.anyByte.language :=
  takesLeast_class fun _ => iff_of_true rfl trivial

theorem hasLead_rangeTable {ranges : List (UInt8 × UInt8)} {b : UInt8} :
    (rangeTable ranges).hasLead b = true ↔ IsInRanges ranges b :=
  (LeadTable.hasLead_ofClass _ b).trans mem_rangeBytes

theorem isBuiltIn_setStep (anyRun negated : Bool) (cls : LeadTable) :
    (setStep anyRun negated cls).isBuiltIn = true := by
  cases anyRun <;> cases negated <;> rfl

/-- The step of a set. -/
theorem takesLeast_setStep (anyRun negated : Bool) (ranges : List (UInt8 × UInt8)) :
    (setStep anyRun negated (rangeTable ranges)).taken.TakesLeast
      ((if anyRun then ⊤ else 1) * (Item.set negated ranges).language) := by
  cases anyRun <;> cases negated
  · rw [if_neg Bool.false_ne_true, one_mul]
    exact takesLeast_class fun b => by simp [hasLead_rangeTable]
  · rw [if_neg Bool.false_ne_true, one_mul]
    exact takesLeast_class fun b => by simp [← hasLead_rangeTable]
  · exact takesLeast_throughClass fun b => mem_rangeBytes.trans (by simp)
  · exact takesLeast_throughClass fun b => by simp [Byte.mem_all, ← hasLead_rangeTable]

/-! ## Assemblies -/

namespace Assembly

/-- In front of the stars, the steps and the literal stand for words of one length. -/
def IsFront (a : Assembly) (L : Language UInt8) : Prop :=
  a.anyRun = false ∧
    ∃ K k, a.matcher.TakesLeast K ∧ HasLength K k ∧ L = K * {a.literal}

/-- Behind some stars. A star that waits does so for a literal, and there is no other literal,
unless no star has come yet. -/
def IsSearching (a : Assembly) (L : Language UInt8) : Prop :=
  ∃ K, a.matcher.TakesLeast K ∧ L = K * a.waiting * {a.literal} ∧
    (a.anyRun = true → a.literal ≠ []) ∧
      (a.anyRun = false → a.literal = [] ∨ ∃ k, HasLength K k)

theorem isFront_empty : empty.IsFront 1 := by
  refine ⟨rfl, 1, 0, Matcher.takesLeast_empty, hasLength_singleton [], ?_⟩
  exact (one_mul (1 : Language UInt8)).symm

theorem IsFront.isSearching (isFront : a.IsFront L) : a.IsSearching L := by
  obtain ⟨star, K, k, takes, fixed, rfl⟩ := isFront
  refine ⟨K, takes, by simp [waiting, star], fun waits => ?_, fun _ => .inr ⟨k, fixed⟩⟩
  exact absurd (star.symm.trans waits) Bool.false_ne_true

theorem flushLiteral_of_bare (bare : a.literal = []) : a.flushLiteral = a := by
  simp [Assembly.flushLiteral, bare]

theorem isSearching_of_settled (takes : a.matcher.TakesLeast L) (star : a.anyRun = false)
    (bare : a.literal = []) : a.IsSearching L := by
  refine ⟨L, takes, ?_, fun waits => ?_, fun _ => .inl bare⟩
  · rw [bare]
    simp only [waiting, star, Bool.false_eq_true, if_false, mul_one]
    exact (mul_one L).symm
  · exact absurd (star.symm.trans waits) Bool.false_ne_true

theorem addItem_set_of_bare (bare : a.literal = []) (negated : Bool)
    (ranges : List (UInt8 × UInt8)) :
    a.addItem (.set negated ranges) = a.closed (setStep a.anyRun negated (rangeTable ranges)) := by
  rw [Assembly.addItem, flushLiteral_of_bare bare]

/-- The literal is expected at once, or looked for if a star waits. -/
theorem IsSearching.flushLiteral (searching : a.IsSearching L) :
    a.flushLiteral.matcher.TakesLeast L ∧ a.flushLiteral.anyRun = false := by
  obtain ⟨K, takes, rfl, sought, settled⟩ := searching
  -- Without a literal no star can wait, so nothing is left to do.
  by_cases bare : a.literal = []
  · rw [flushLiteral_of_bare bare]
    have star : a.anyRun = false := Bool.eq_false_iff.mpr fun waits => sought waits bare
    have empty : ({a.literal} : Language UInt8) = 1 := by rw [bare]; rfl
    rw [empty]
    simpa [waiting, star] using takes
  · unfold Assembly.flushLiteral
    rw [if_neg (by simpa using bare), mul_assoc]
    refine ⟨?_, rfl⟩
    cases star : a.anyRun with
    | true =>
      simp only [waiting, star, if_true]
      exact takes.push rfl (Scan.takesLeast_through a.literal) (resumes_top_mul K _)
    | false =>
      obtain ⟨k, fixed⟩ := (settled star).resolve_left bare
      simp only [waiting, star, Bool.false_eq_true, if_false, one_mul]
      exact takes.push rfl (Scan.takesLeast_literal a.literal) (fixed.resumes _)

/-- After the steps so far comes nothing else yet. -/
theorem isFront_of_settled {k : Nat} (takes : a.matcher.TakesLeast L) (fixed : HasLength L k)
    (star : a.anyRun = false) (bare : a.literal = []) : a.IsFront L :=
  ⟨star, L, k, takes, fixed, by rw [bare]; exact (mul_one L).symm⟩

theorem IsFront.exists_hasLength (isFront : a.IsFront L) : ∃ k, HasLength L k := by
  obtain ⟨_, K, k, _, fixed, rfl⟩ := isFront
  exact ⟨_, fixed.mul (hasLength_singleton a.literal)⟩

theorem IsFront.addItem (isFront : a.IsFront L) (plain : item.IsPlain) :
    (a.addItem item).IsFront (L * item.language) := by
  obtain ⟨k, fixed⟩ := isFront.exists_hasLength
  obtain ⟨takes, star⟩ := isFront.isSearching.flushLiteral
  have bare := literal_flushLiteral a
  cases item with
  | literal w =>
    obtain ⟨waits, K, length, steps, fixed', rfl⟩ := isFront
    refine ⟨waits, K, length, steps, fixed', ?_⟩
    rw [mul_assoc]
    exact congrArg (K * ·) (singleton_mul_singleton a.literal w)
  | anyByte =>
    exact isFront_of_settled (takes.push rfl takesLeast_any (fixed.resumes _))
      (fixed.mul (hasLength_oneByte _)) star bare
  | set negated ranges =>
    have step := takesLeast_setStep false negated ranges
    rw [if_neg Bool.false_ne_true, one_mul, ← star] at step
    exact isFront_of_settled (takes.push (isBuiltIn_setStep _ _ _) step (fixed.resumes _))
      (fixed.mul (hasLength_oneByte _)) rfl bare
  | anyRun => exact plain.elim
  | alternation => exact plain.elim

theorem IsFront.foldl_addItem (isFront : a.IsFront L) (plain : ∀ item ∈ front, item.IsPlain) :
    (front.foldl Assembly.addItem a).IsFront (L * languageOf front) := by
  induction front generalizing a L with
  | nil => simpa [languageOf] using isFront
  | cons item front ih =>
    rw [languageOf_cons, ← mul_assoc]
    exact ih (isFront.addItem (plain item List.mem_cons_self)) fun other member =>
      plain other (List.mem_cons_of_mem _ member)

/-- A star, and what it looks for. -/
theorem IsSearching.addItem (searching : a.IsSearching L) (looked : item.IsSought) :
    ((a.addItem .anyRun).addItem item).IsSearching (L * (⊤ * item.language)) := by
  obtain ⟨takes, _⟩ := searching.flushLiteral
  have bare := literal_flushLiteral a
  cases item with
  | literal w =>
    refine ⟨L, takes, ?_, fun _ => ?_, (nomatch ·)⟩
    · rw [← mul_assoc]
      show L * ⊤ * {w} = L * ⊤ * {a.flushLiteral.literal ++ w}
      rw [bare, List.nil_append]
    · show a.flushLiteral.literal ++ w ≠ []
      rwa [bare, List.nil_append]
  | set negated ranges =>
    have step := takesLeast_setStep true negated ranges
    rw [if_pos rfl] at step
    have bare' : (a.addItem .anyRun).literal = [] := bare
    rw [addItem_set_of_bare bare']
    exact isSearching_of_settled
      (takes.push (isBuiltIn_setStep _ _ _) step (resumes_top_mul L _)) rfl bare
  | anyByte => exact looked.elim
  | anyRun => exact looked.elim
  | alternation => exact looked.elim

theorem IsSearching.foldl_addItem (searching : a.IsSearching L)
    (looked : ∀ item ∈ sought, item.IsSought) :
    ((sought.flatMap fun item => [.anyRun, item]).foldl Assembly.addItem a).IsSearching
      (L * languageOf (sought.flatMap fun item => [.anyRun, item])) := by
  induction sought generalizing a L with
  | nil => simpa [languageOf] using searching
  | cons item sought ih =>
    have next := searching.addItem (looked item List.mem_cons_self)
    have rest := ih next fun other member => looked other (List.mem_cons_of_mem _ member)
    have pair : languageOf [.anyRun, item] = ⊤ * item.language := by
      simp [languageOf, Item.language]
    rw [List.flatMap_cons, List.foldl_append, languageOf_append, pair, ← mul_assoc]
    exact rest

/-- At the end, the shortest word of the language is taken. -/
theorem IsSearching.finished (searching : a.IsSearching L) : a.finished.TakesLeast L := by
  obtain ⟨takes, star⟩ := searching.flushLiteral
  rw [Assembly.finished, if_neg (by simp [star])]
  exact takes

/-- A star at the end takes the rest of the input. -/
theorem IsSearching.finished_anyRun (searching : a.IsSearching L) (input : Bytes) :
    (a.addItem .anyRun).finished.matchFront input =
      (a.finished.matchFront input).map fun _ => input.length := by
  obtain ⟨takes, star⟩ := searching.flushLiteral
  have bare : (a.addItem .anyRun).literal = [] := literal_flushLiteral a
  have steps : (a.addItem .anyRun).finished = a.flushLiteral.matcher.push .remainder := by
    rw [Assembly.finished, flushLiteral_of_bare bare]
    rfl
  rw [steps, takes.matchFront_push_remainder, Assembly.finished, if_neg (by simp [star])]

end Assembly

/-! ## Patterns -/

variable {input : Bytes} {n : Nat}

theorem exists_isPrefix_mul_top :
    (∃ w, w <+: input ∧ w ∈ L * ⊤) ↔ ∃ w, w <+: input ∧ w ∈ L := by
  constructor
  · rintro ⟨w, front, member⟩
    obtain ⟨u, inside, v, _, rfl⟩ := Language.mem_mul.mp member
    exact ⟨u, (List.prefix_append u v).trans front, inside⟩
  · rintro ⟨w, front, member⟩
    exact ⟨w, front, List.append_nil w ▸ Language.append_mem_mul member trivial⟩

theorem isSearching_searching (plain : ∀ item ∈ front, item.IsPlain)
    (looked : ∀ item ∈ sought, item.IsSought) :
    ((searching front sought false).foldl Assembly.addItem .empty).IsSearching
      (languageOf (searching front sought false)) := by
  have begins := Assembly.isFront_empty.foldl_addItem plain
  rw [one_mul] at begins
  have searches := begins.isSearching.foldl_addItem looked
  rw [← languageOf_append, ← List.foldl_append] at searches
  simpa only [searching, Bool.false_eq_true, if_false, List.append_nil] using searches

theorem searching_true (front sought : List Item) :
    searching front sought true = searching front sought false ++ [.anyRun] := by
  simp [searching]

/-- The words at the front, spelled out. -/
theorem setOf_isPrefix :
    {length | ∃ w, w <+: input ∧ w ∈ L ∧ w.length = length} = prefixLengths L input :=
  Set.ext fun _ => mem_prefixLengths_iff.symm

theorem not_exists_isPrefix :
    (∀ w, w <+: input → w ∉ L) ↔ ∀ n, n ∉ prefixLengths L input := by
  constructor
  · intro nowhere n member
    obtain ⟨w, front, inside, _⟩ := mem_prefixLengths_iff.mp member
    exact nowhere w front inside
  · exact fun nowhere w front inside =>
      nowhere _ (mem_prefixLengths_of_isPrefix front inside)

/-- A pattern that searches misses nothing. It is compiled, and it matches iff a word of its
language stands at the front of the input. Then it takes all of the input if it ends in a star,
and as few bytes as any such word has if it does not. -/
theorem parse_searching {pattern : Bytes} (plain : ∀ item ∈ front, item.IsPlain)
    (looked : ∀ item ∈ sought, item.IsSought)
    (written : IsWritten (searching front sought last) pattern) (some_byte : pattern ≠ []) :
    ∃ g, parse pattern = .ok g ∧ ∀ input,
      (g.matchFront input = none ↔
        ∀ w, w <+: input → w ∉ languageOf (searching front sought last)) ∧
      ∀ n, g.matchFront input = some n ↔
        if last then
          n = input.length ∧ ∃ w, w <+: input ∧ w ∈ languageOf (searching front sought last)
        else
          IsLeast
            {length | ∃ w, w <+: input ∧ w ∈ languageOf (searching front sought last) ∧
              w.length = length} n := by
  refine ⟨_, parse_of_isWritten written (isApart_searching plain looked) some_byte, fun input => ?_⟩
  have searches := isSearching_searching plain looked
  have takes := searches.finished
  cases last with
  | false =>
    rw [not_exists_isPrefix, setOf_isPrefix]
    exact ⟨takes.matchFront_eq_none_iff, fun n => takes.matchFront_eq_some_iff⟩
  | true =>
    -- What the star takes is no part of the question whether there is a match.
    have starred : languageOf (searching front sought true) =
        languageOf (searching front sought false) * ⊤ := by
      rw [searching_true, languageOf_concat]
      rfl
    have all : ((searching front sought true).foldl Assembly.addItem .empty).finished.matchFront
        input = (((searching front sought false).foldl Assembly.addItem .empty).finished.matchFront
          input).map fun _ => input.length := by
      rw [searching_true, List.foldl_append]
      exact searches.finished_anyRun input
    simp only [Glob.matchFront, all, starred, if_true]
    generalize ((searching front sought false).foldl Assembly.addItem .empty).finished = m at takes
    have fails : m.matchFront input = none ↔
        ∀ w, w <+: input → w ∉ languageOf (searching front sought false) * ⊤ := by
      rw [takes.matchFront_eq_none_iff, ← not_exists_isPrefix]
      simpa only [not_exists, not_and] using not_congr exists_isPrefix_mul_top.symm
    refine ⟨Option.map_eq_none_iff.trans fails, fun n => ?_⟩
    rw [Option.map_eq_some_iff]
    constructor
    · rintro ⟨k, found, rfl⟩
      refine ⟨rfl, ?_⟩
      by_contra nowhere
      rw [fails.mpr fun w front member => nowhere ⟨w, front, member⟩] at found
      cases found
    · rintro ⟨rfl, w, front, member⟩
      obtain ⟨k, found⟩ := Option.ne_none_iff_exists'.mp fun absent =>
        fails.mp absent w front member
      exact ⟨k, found, rfl⟩

/-- Two searches behind a question mark and a negated set. -/
theorem parse_searching_starAndRange :
    ∃ g, parse (Bytes.ofText "?[^0-9]**\\**[x-z]") = .ok g ∧
      g.matchFront (Bytes.ofText "qa1*2y*z") = some 6 ∧
        IsLeast
          {length | ∃ w, w <+: Bytes.ofText "qa1*2y*z" ∧
            w ∈ languageOf (searching [.anyByte, .set true [(0x30, 0x39)]]
              [.literal [Byte.asterisk], .set false [(0x78, 0x7A)]] false) ∧
            w.length = length} 6 := by
  have digits : WrittenMembers [(0x30, 0x39)] (Bytes.ofText "0-9") :=
    .range ⟨by decide, Byte.isDigit, by simp, rfl, rfl⟩ .nil
  have letters : WrittenMembers [(0x78, 0x7A)] (Bytes.ofText "x-z") :=
    .range ⟨by decide, Byte.isLower, by simp, rfl, rfl⟩ .nil
  have asterisk : IsEscaped isSpecial [Byte.asterisk] (Bytes.ofText "\\*") :=
    .escaped (by decide) .nil
  have written : IsWritten (searching [.anyByte, .set true [(0x30, 0x39)]]
      [.literal [Byte.asterisk], .set false [(0x78, 0x7A)]] false)
      (Bytes.ofText "?[^0-9]**\\**[x-z]") :=
    .cons .anyByte <| .cons (.set (.present rfl) digits (List.cons_ne_nil _ _)) <|
      .cons .stars <| .cons (.literal asterisk) <| .cons .star <|
        .cons (.set .absent letters (List.cons_ne_nil _ _)) .nil
  obtain ⟨g, parsed, matched⟩ := parse_searching (by simp [Item.IsPlain])
    (by simp [Item.IsSought]) written (by decide)
  have ran : (parse (Bytes.ofText "?[^0-9]**\\**[x-z]")).toOption.bind
      (·.matchFront (Bytes.ofText "qa1*2y*z")) = some 6 := by decide +kernel
  rw [parsed] at ran
  exact ⟨g, parsed, ran, ((matched _).2 6).mp ran⟩

end Octets.Glob
