import Octets.Proofs.Glob.Language
import Octets.Proofs.Matcher

/-!
# Soundness of patterns

What a compiled pattern matches is in the language of its tokens. The tokens are put together
from left to right. The tokens so far spell some items and then the front of a group that is
still open; the steps so far, the star that waits and the literal that is being gathered are
together sound for the language of those items. A star that has to wait longer may change
places with a question mark, since any bytes and then one byte are one byte and then any bytes.

## Main definitions

* `Assembly.IsSoundFor` — what the steps so far, and what waits for the next token, stand for
* `Glob.IsOpen` — the front of an open group and what the assembly knows of it
* `Glob.HasRead` — an assembly that has read some tokens

## Main results

* `hasRead_push` — one more token
* `hasRead_assemble` — all tokens of a pattern
* `parse_sound` — what a pattern matches, and where matching the whole input comes in
-/

namespace Octets.Glob

/-! ## Languages -/

theorem singleton_mul_singleton (u v : Bytes) :
    ({u} : Language UInt8) * {v} = {u ++ v} := Set.image2_singleton

/-- One byte and then any bytes are any bytes and then one byte. -/
theorem oneByte_mul_top_le (property : UInt8 → Prop) (all : ∀ b, property b) :
    oneByte property * ⊤ ≤ ⊤ * oneByte property := by
  intro w member
  obtain ⟨u, ⟨b, _, rfl⟩, v, _, rfl⟩ := Language.mem_mul.mp member
  obtain ⟨front, last, same⟩ := (List.eq_nil_or_concat ([b] ++ v)).resolve_left (by simp)
  rw [same, List.concat_eq_append]
  exact Language.mem_mul.mpr ⟨front, trivial, [last], ⟨last, all last, rfl⟩, rfl⟩

/-! ## Assemblies -/

namespace Assembly

variable {a : Assembly} {L M : Language UInt8}

/-- What a star that waits stands for. -/
def waiting (a : Assembly) : Language UInt8 := if a.anyRun then ⊤ else 1

/-- The steps so far, the star that waits, and the literal are sound for the language. -/
def IsSoundFor (a : Assembly) (L : Language UInt8) : Prop :=
  ∃ K, a.matcher.IsSoundFor K ∧ K * a.waiting * {a.literal} ≤ L

theorem one_le_waiting (a : Assembly) : 1 ≤ a.waiting := by
  unfold waiting
  split
  · exact le_top
  · exact le_rfl

theorem isSoundFor_empty : empty.IsSoundFor 1 := by
  have bare : ({empty.literal} : Language UInt8) = 1 := rfl
  refine ⟨1, Matcher.isSoundFor_empty, ?_⟩
  rw [bare]
  simp [waiting, empty]

/-- More text for the literal. -/
theorem IsSoundFor.appendLiteral (sound : a.IsSoundFor L) (text : Bytes) :
    IsSoundFor { a with literal := a.literal ++ text } (L * {text}) := by
  obtain ⟨K, steps, le⟩ := sound
  refine ⟨K, steps, ?_⟩
  calc K * a.waiting * {a.literal ++ text}
      = K * a.waiting * {a.literal} * {text} := by
        rw [← singleton_mul_singleton, ← mul_assoc]
    _ ≤ L * {text} := mul_le_mul_left le _

/-- The step of a group, which uses up the star that waits. -/
theorem IsSoundFor.pushStep {step : Matcher.Step} (sound : a.IsSoundFor L)
    (bare : a.literal = []) (step_sound : step.IsSoundFor (a.waiting * M)) :
    IsSoundFor { a with matcher := a.matcher.push step, anyRun := false, group := none }
      (L * M) := by
  obtain ⟨K, steps, le⟩ := sound
  refine ⟨_, Matcher.isSoundFor_push steps step_sound, ?_⟩
  rw [bare] at le
  simp only [bare]
  calc K * (a.waiting * M) * 1 * 1
      = K * a.waiting * 1 * M := by rw [mul_one, mul_one, mul_one, mul_assoc]
    _ ≤ L * M := mul_le_mul_left le _

/-- Flushing the literal changes nothing but where it is kept. -/
theorem IsSoundFor.flushLiteral (sound : a.IsSoundFor L) : a.flushLiteral.IsSoundFor L := by
  unfold Assembly.flushLiteral
  split
  · exact sound
  · obtain ⟨K, steps, le⟩ := sound
    have step_sound : Matcher.Step.IsSoundFor
        (if a.anyRun then .through a.literal else .literal a.literal)
        (a.waiting * {a.literal}) := by
      unfold waiting
      split
      · exact Matcher.Step.isSoundFor_through a.literal
      · rw [one_mul]
        exact Matcher.Step.isSoundFor_literal a.literal
    refine ⟨_, Matcher.isSoundFor_push steps step_sound, ?_⟩
    calc K * (a.waiting * {a.literal}) * 1 * 1
        = K * a.waiting * {a.literal} := by rw [mul_one, mul_one, mul_assoc]
      _ ≤ L := le

@[simp] theorem literal_flushLiteral (a : Assembly) : a.flushLiteral.literal = [] := by
  unfold Assembly.flushLiteral
  split <;> simp_all

@[simp] theorem group_flushLiteral (a : Assembly) : a.flushLiteral.group = a.group := by
  unfold Assembly.flushLiteral
  split <;> rfl

/-- A star waits from here on, whether one waited before or not. -/
theorem IsSoundFor.setAnyRun (sound : a.IsSoundFor L) (bare : a.literal = []) :
    IsSoundFor { a with anyRun := true } (L * ⊤) := by
  obtain ⟨K, steps, le⟩ := sound
  refine ⟨K, steps, ?_⟩
  rw [bare] at le
  simp only [bare]
  calc K * ⊤ * 1
      = K * 1 * 1 * ⊤ := by simp only [mul_one]
    _ ≤ K * a.waiting * 1 * ⊤ := by gcongr; exact a.one_le_waiting
    _ ≤ L * ⊤ := mul_le_mul_left le _

/-- A step for any byte goes in front of a star that waits. -/
theorem IsSoundFor.pushAny (sound : a.IsSoundFor L) (bare : a.literal = []) :
    (a.addStep .any).IsSoundFor (L * Item.anyByte.language) := by
  obtain ⟨K, steps, le⟩ := sound
  have any_sound : Matcher.Step.any.IsSoundFor Item.anyByte.language :=
    Matcher.Step.isSoundFor_of_byte rfl fun b _ => ⟨b, trivial, rfl⟩
  refine ⟨_, Matcher.isSoundFor_push steps any_sound, ?_⟩
  have swap : Item.anyByte.language * a.waiting ≤ a.waiting * Item.anyByte.language := by
    unfold waiting
    split
    · exact oneByte_mul_top_le _ fun _ => trivial
    · simp
  rw [bare] at le
  show K * Item.anyByte.language * a.waiting * {a.literal} ≤ _
  rw [bare]
  calc K * Item.anyByte.language * a.waiting * 1
      = K * (Item.anyByte.language * a.waiting) := by rw [mul_one, mul_assoc]
    _ ≤ K * (a.waiting * Item.anyByte.language) := mul_le_mul_right swap _
    _ = K * a.waiting * 1 * Item.anyByte.language := by rw [mul_one, mul_assoc]
    _ ≤ L * Item.anyByte.language := mul_le_mul_left le _

/-- At the end of the pattern, a star that still waits takes the rest. -/
theorem IsSoundFor.finish {m : Matcher} (sound : a.IsSoundFor L) (finished : a.finish = .ok m) :
    a.group = none ∧ m.IsSoundFor L := by
  unfold Assembly.finish at finished
  split at finished
  · cases finished
  · rename_i closed
    refine ⟨closed, ?_⟩
    obtain ⟨K, steps, le⟩ := sound.flushLiteral
    have spent : ({a.flushLiteral.literal} : Language UInt8) = 1 := by
      rw [literal_flushLiteral]
      rfl
    rw [spent, mul_one] at le
    cases finished
    split
    · rename_i waits
      refine (Matcher.isSoundFor_push steps Matcher.Step.isSoundFor_remainder).mono ?_
      simpa [waiting, waits] using le
    · rename_i waits
      refine steps.mono ?_
      simpa [waiting, waits] using le

end Assembly

/-! ## Members and names -/

/-- The members are the bytes in the ranges. -/
def Lists (members : Bytes) (ranges : List (UInt8 × UInt8)) : Prop :=
  ∀ b, b ∈ members ↔ IsInRanges ranges b

theorem lists_nil : Lists [] [] := by
  intro b
  simp [IsInRanges]

theorem isInRanges_concat {ranges : List (UInt8 × UInt8)} {low high b : UInt8} :
    IsInRanges (ranges ++ [(low, high)]) b ↔ IsInRanges ranges b ∨ (low ≤ b ∧ b ≤ high) := by
  simp [IsInRanges, or_and_right, exists_or]

theorem Lists.byte {members : Bytes} {ranges : List (UInt8 × UInt8)}
    (lists : Lists members ranges) (b : UInt8) : Lists (members ++ [b]) (ranges ++ [(b, b)]) := by
  intro c
  rw [isInRanges_concat, List.mem_append, lists c, List.mem_singleton]
  refine or_congr_right ⟨fun same => ?_, fun between => ?_⟩
  · exact ⟨same ▸ UInt8.le_refl c, same ▸ UInt8.le_refl c⟩
  · exact UInt8.le_antisymm between.2 between.1

theorem Lists.range {members : Bytes} {ranges : List (UInt8 × UInt8)} {low high : UInt8}
    (lists : Lists members ranges) (ascend : low ≤ high) :
    Lists (members ++ [low] ++ rangeAbove low high) (ranges ++ [(low, high)]) := by
  intro c
  rw [isInRanges_concat, List.mem_append, List.mem_append, lists c, List.mem_singleton, or_assoc]
  have above : c ∈ rangeAbove low high ↔ low < c ∧ c ≤ high := by
    simp [rangeAbove, Byte.mem_all]
  rw [above]
  refine or_congr_right ⟨fun inside => ?_, fun between => ?_⟩
  · obtain rfl | ⟨more, less⟩ := inside
    · exact ⟨UInt8.le_refl c, ascend⟩
    · exact ⟨UInt8.le_of_lt more, less⟩
  · by_cases same : c = low
    · exact .inl same
    · exact .inr ⟨UInt8.lt_of_le_of_ne between.1 (Ne.symm same), between.2⟩

theorem IsByteText.unescape {text : Bytes} {b : UInt8} (spelled : IsByteText text b) :
    unescape text = [b] := by
  obtain rfl | rfl := spelled
  · rfl
  · simp [Glob.unescape]

theorem IsByteText.getLast? {text : Bytes} {b : UInt8} (spelled : IsByteText text b) :
    text.getLast? = some b := by
  obtain rfl | rfl := spelled <;> rfl

/-! ## Groups -/

/-- The front of a group that is open, and what the assembly knows of the group. -/
inductive IsOpen : Place → List Lexed → Option Group → Prop
  | body : IsOpen .body [] none
  | setFirst (bracket : Bytes) (offset : Nat) :
      IsOpen .setFirst [(.setOpen, bracket)] (some (.set offset false [] false))
  | setNegated (bracket mark : Bytes) (offset : Nat) :
      IsOpen .setNegated [(.setOpen, bracket), (.setNegation, mark)]
        (some (.set offset true [] false))
  | set {mark tokens : List Lexed} {negated : Bool} {members : Bytes}
      {ranges : List (UInt8 × UInt8)} (bracket : Bytes) (offset : Nat) :
      Mark negated mark → Members tokens ranges → Lists members ranges →
        IsOpen .set ((.setOpen, bracket) :: (mark ++ tokens))
          (some (.set offset negated members false))
  | setDash {mark tokens : List Lexed} {negated : Bool} {members : Bytes}
      {ranges : List (UInt8 × UInt8)} {low high : UInt8} (bracket : Bytes) (offset : Nat) :
      Mark negated mark → Members tokens ranges → Lists members ranges → low ≤ high →
        IsOpen (.setDash low high)
          ((.setOpen, bracket) :: (mark ++ tokens) ++ [(.setChar, [low])])
          (some (.set offset negated (members ++ [low]) false))
  | setRangeEnd {mark tokens : List Lexed} {negated : Bool} {members : Bytes}
      {ranges : List (UInt8 × UInt8)} {low high : UInt8} (bracket dash : Bytes) (offset : Nat) :
      Mark negated mark → Members tokens ranges → Lists members ranges → low ≤ high →
        IsOpen (.setRangeEnd low high)
          ((.setOpen, bracket) :: (mark ++ tokens) ++ [(.setChar, [low]), (.setRange, dash)])
          (some (.set offset negated (members ++ [low]) true))
  | alternationFirst (brace : Bytes) (offset : Nat) :
      IsOpen .alternationFirst [(.alternationOpen, brace)] (some (.alternation offset []))
  | alternationName {tokens : List Lexed} {names : List Bytes} (brace comma : Bytes)
      (offset : Nat) :
      Names tokens names →
        IsOpen .alternationName
          ((.alternationOpen, brace) :: tokens ++ [(.alternationComma, comma)])
          (some (.alternation offset names))
  | alternationSeparator {tokens : List Lexed} {names : List Bytes} (brace : Bytes)
      (offset : Nat) :
      Names tokens names →
        IsOpen .alternationSeparator ((.alternationOpen, brace) :: tokens)
          (some (.alternation offset names))

/-- Where a member may come, the set so far is made of whole members. -/
theorem IsOpen.set_of_takesMember {place : Place} {front : List Lexed} {group : Group}
    (isOpen : IsOpen place front (some group)) (member : place.TakesMember) :
    ∃ bracket mark tokens negated members ranges offset,
      front = (.setOpen, bracket) :: (mark ++ tokens) ∧
        group = .set offset negated members false ∧ Mark negated mark ∧
          Members tokens ranges ∧ Lists members ranges := by
  cases isOpen with
  | setFirst bracket offset =>
    exact ⟨bracket, [], [], false, [], [], offset, rfl, rfl, .absent, .nil, lists_nil⟩
  | setNegated bracket mark offset =>
    exact ⟨bracket, [(.setNegation, mark)], [], true, [], [], offset, rfl, rfl, .present mark,
      .nil, lists_nil⟩
  | set bracket offset marked spelled lists =>
    exact ⟨bracket, _, _, _, _, _, offset, rfl, rfl, marked, spelled, lists⟩
  | _ => cases member

/-- Where a name may come, it goes on with the names so far. -/
theorem IsOpen.names_of_takesName {place : Place} {front : List Lexed} {group : Group}
    (isOpen : IsOpen place front (some group)) (name : place.TakesName) :
    ∃ brace tokens names offset, front = (.alternationOpen, brace) :: tokens ∧
      group = .alternation offset names ∧
        ∀ text, Names (tokens ++ [(.alternationName, text)]) (names ++ [unescape text]) := by
  cases isOpen with
  | alternationFirst brace offset => exact ⟨brace, [], [], offset, rfl, rfl, .one⟩
  | alternationName brace comma offset spelled =>
    refine ⟨brace, _, _, offset, rfl, rfl, fun text => ?_⟩
    simpa using spelled.concat comma text
  | _ => cases name

/-! ## Tokens -/

/-- An assembly that has read some tokens: they spell items and then the front of a group. -/
def HasRead (place : Place) (done : List Lexed) (a : Assembly) : Prop :=
  ∃ closed front items, done = closed ++ front ∧ Spells closed items ∧
    IsOpen place front a.group ∧ a.IsSoundFor (languageOf items) ∧
      (a.group.isSome → a.literal = [])

variable {place next : Place} {closed front part done : List Lexed} {items : List Item}
  {item : Item} {a b : Assembly} {group : Group} {token : Token} {text : Bytes} {offset : Nat}

/-- An item has come to its end. -/
theorem hasRead_item (spelled : Spells closed items) (part_spelled : item.IsSpelled part)
    (outside : a.group = none) (sound : a.IsSoundFor (languageOf items * item.language)) :
    HasRead .body (closed ++ part) a := by
  refine ⟨closed ++ part, [], items ++ [item], (List.append_nil _).symm,
    spelled.concat part_spelled, outside ▸ .body, ?_, by simp [outside]⟩
  rw [languageOf_concat]
  exact sound

/-- A group goes on. -/
theorem hasRead_front (spelled : Spells closed items) (sound : a.IsSoundFor (languageOf items))
    (bare : a.literal = []) (inside : a.group = some group)
    (isOpen : IsOpen place front (some group)) : HasRead place (closed ++ front) a :=
  ⟨closed, front, items, rfl, spelled, inside ▸ isOpen, sound, fun _ => bare⟩

/-- One more token outside of groups. -/
theorem hasRead_pushPlain (spelled : Spells done items) (sound : a.IsSoundFor (languageOf items))
    (outside : a.group = none) (follows : Follows .body (token, text) next)
    (pushed : a.pushPlain token text offset = .ok b) : HasRead next (done ++ [(token, text)]) b := by
  have bare := Assembly.literal_flushLiteral a
  have flushed := sound.flushLiteral
  -- Text goes behind the literal so far; all else flushes it first.
  cases follows with
  | separator =>
    cases pushed
    exact hasRead_item spelled (.literal text (.inr (.inl rfl))) outside (sound.appendLiteral _)
  | name =>
    cases pushed
    exact hasRead_item spelled (.literal text (.inl rfl)) outside (sound.appendLiteral _)
  | newline =>
    cases pushed
    exact hasRead_item spelled (.literal text (.inr (.inr rfl))) outside (sound.appendLiteral _)
  | anyRun =>
    cases pushed
    exact hasRead_item spelled (.anyRun text) (by simp [outside]) (flushed.setAnyRun bare)
  | anyByte =>
    cases pushed
    exact hasRead_item spelled (.anyByte text) (by simp [Assembly.addStep, outside])
      (flushed.pushAny bare)
  | setOpen =>
    cases pushed
    exact hasRead_front spelled flushed bare rfl (.setFirst text offset)
  | alternationOpen =>
    cases pushed
    exact hasRead_front spelled flushed bare rfl (.alternationFirst text offset)
  | member takes => cases takes
  | rangeStart takes => cases takes
  | alternationName _ takes => cases takes
  | text => cases pushed

/-- The step of a set. -/
theorem isSoundFor_set {negated : Bool} {members : Bytes} {ranges : List (UInt8 × UInt8)}
    (lists : Lists members ranges) (anyRun : Bool) :
    Matcher.Step.IsSoundFor
      (match anyRun, negated with
        | false, false => .lead (.ofClass members)
        | false, true => .noLead (.ofClass members)
        | true, false => .throughEntry (.ofClass members)
        | true, true => .throughEntry (LeadTable.complement (.ofClass members)))
      ((if anyRun then ⊤ else 1) * (Item.set negated ranges).language) := by
  have leads (b : UInt8) := (LeadTable.hasLead_ofClass members b).trans (lists b)
  -- Without a star the set is one byte here, behind one it is the first such byte further on.
  cases anyRun <;> cases negated
  · refine Matcher.Step.isSoundFor_of_byte rfl fun b inside => ?_
    rw [if_neg Bool.false_ne_true, one_mul]
    exact ⟨b, by simpa using (leads b).mp inside, rfl⟩
  · refine Matcher.Step.isSoundFor_of_byte rfl fun b outside => ?_
    rw [if_neg Bool.false_ne_true, one_mul]
    exact ⟨b, by simpa [← leads b] using outside, rfl⟩
  · refine (Matcher.Step.isSoundFor_throughEntry _).mono (mul_le_mul_right ?_ ⊤)
    intro w member
    obtain ⟨b, inside, rfl⟩ := LeadTable.mem_language_ofClass member
    exact ⟨b, by simpa using (lists b).mp inside, rfl⟩
  · refine (Matcher.Step.isSoundFor_throughEntry _).mono (mul_le_mul_right ?_ ⊤)
    intro w member
    obtain ⟨b, outside, rfl⟩ := LeadTable.mem_language_complement member
    exact ⟨b, by simpa [← lists b] using outside, rfl⟩

/-- The step of an alternation with names. -/
theorem isSoundFor_alternation {names : List Bytes} (some_name : names ≠ []) (anyRun : Bool) :
    Matcher.Step.IsSoundFor
      (if anyRun then .throughEntry (.ofSequences names) else .entry (.ofSequences names))
      ((if anyRun then ⊤ else 1) * (Item.alternation names).language) := by
  have listed : (LeadTable.ofSequences names).language ≤ (Item.alternation names).language := by
    intro w member
    cases names with
    | nil => exact absurd rfl some_name
    | cons => exact LeadTable.mem_language_ofSequences member
  cases anyRun with
  | false =>
    rw [if_neg Bool.false_ne_true, if_neg Bool.false_ne_true, one_mul]
    exact (Matcher.Step.isSoundFor_entry _).mono listed
  | true => exact (Matcher.Step.isSoundFor_throughEntry _).mono (mul_le_mul_right listed ⊤)

/-- One more token inside of a group. -/
theorem hasRead_pushGrouped (spelled : Spells closed items)
    (sound : a.IsSoundFor (languageOf items)) (bare : a.literal = []) (inside : a.group = some group)
    (isOpen : IsOpen place front (some group)) (follows : Follows place (token, text) next)
    (pushed : a.pushGrouped group token text = .ok b) :
    HasRead next (closed ++ front ++ [(token, text)]) b := by
  rw [List.append_assoc]
  cases follows with
  | setNegation =>
    cases isOpen with
    | setFirst bracket =>
      cases pushed
      exact hasRead_front spelled sound bare rfl (.setNegated bracket text _)
  | @member _ _ member takes single =>
    obtain ⟨bracket, mark, tokens, negated, members, ranges, _, rfl, rfl, marked, listed, lists⟩ :=
      isOpen.set_of_takesMember takes
    have added : Assembly.addMember members false member = (members ++ [member], false) := by
      unfold Assembly.addMember
      split <;> simp_all
    simp only [Assembly.pushGrouped, single.getLast?, added, Except.ok.injEq] at pushed
    subst pushed
    refine hasRead_front spelled sound bare rfl ?_
    have more := Members.append listed (.byte single.unescape .nil)
    simpa using IsOpen.set bracket _ marked more (lists.byte member)
  | @rangeStart _ low high takes range =>
    obtain ⟨bracket, mark, tokens, negated, members, ranges, _, rfl, rfl, marked, listed, lists⟩ :=
      isOpen.set_of_takesMember takes
    have added : Assembly.addMember members false low = (members ++ [low], false) := by
      unfold Assembly.addMember
      split <;> simp_all
    simp only [Assembly.pushGrouped, List.getLast?_singleton, added, Except.ok.injEq] at pushed
    subst pushed
    refine hasRead_front spelled sound bare rfl ?_
    have ascend : low ≤ high := by
      simp only [isRange, Bool.and_eq_true, decide_eq_true_eq] at range
      exact range.2
    exact .setDash bracket _ marked listed lists ascend
  | setRange =>
    cases isOpen with
    | setDash bracket _ marked listed lists ascend =>
      cases pushed
      refine hasRead_front spelled sound bare rfl ?_
      simpa using IsOpen.setRangeEnd bracket text _ marked listed lists ascend
  | rangeEnd low high =>
    cases isOpen with
    | setRangeEnd bracket dash _ marked listed lists ascend =>
      -- The least byte is a member already, and the bytes above it are added.
      have added (members : Bytes) : Assembly.addMember (members ++ [low]) true high =
          (members ++ [low] ++ rangeAbove low high, false) := by
        simp [Assembly.addMember]
      simp only [Assembly.pushGrouped, List.getLast?_singleton, added, Except.ok.injEq] at pushed
      subst pushed
      refine hasRead_front spelled sound bare rfl ?_
      have range : Members [(.setChar, [low]), (.setRange, dash), (.setChar, [high])]
          [(low, high)] := .range rfl rfl .nil
      simpa using IsOpen.set bracket _ marked (listed.append range) (lists.range ascend)
  | setClose =>
    cases isOpen with
    | set bracket _ marked listed lists =>
      cases pushed
      exact hasRead_item spelled (.set bracket text marked listed) rfl
        (sound.pushStep bare (isSoundFor_set lists a.anyRun))
  | alternationName _ takes =>
    obtain ⟨brace, tokens, names, _, rfl, rfl, more⟩ := isOpen.names_of_takesName takes
    cases pushed
    exact hasRead_front spelled sound bare rfl (.alternationSeparator brace _ (more text))
  | comma =>
    cases isOpen with
    | alternationSeparator brace _ listed =>
      cases pushed
      exact hasRead_front spelled sound bare inside (.alternationName brace text _ listed)
  | emptyClose =>
    cases isOpen with
    | alternationFirst brace =>
      -- No step is added, so a star that waits goes on waiting.
      cases pushed
      refine hasRead_item spelled (.emptyAlternation brace text) rfl ?_
      exact (mul_one (languageOf items)).symm ▸ sound
  | alternationClose =>
    cases isOpen with
    | @alternationSeparator tokens names brace _ listed =>
      obtain ⟨first, others, rfl⟩ := List.exists_cons_of_ne_nil listed.ne_nil
      cases pushed
      exact hasRead_item spelled (.alternation brace text listed) rfl
        (sound.pushStep bare (isSoundFor_alternation listed.ne_nil a.anyRun))
  | newline => cases pushed
  | text => cases pushed
  | _ => cases isOpen

/-- One more token. -/
theorem hasRead_push (read : HasRead place done a) (follows : Follows place (token, text) next)
    (pushed : a.push token text offset = .ok b) : HasRead next (done ++ [(token, text)]) b := by
  obtain ⟨closed, front, items, rfl, spelled, isOpen, sound, bare⟩ := read
  unfold Assembly.push at pushed
  split at pushed
  · cases pushed
  · cases group : a.group with
    | none =>
      rw [group] at isOpen
      simp only [group] at pushed
      cases isOpen
      rw [List.append_nil]
      exact hasRead_pushPlain spelled sound group follows pushed
    | some open_group =>
      rw [group] at isOpen
      simp only [group] at pushed
      exact hasRead_pushGrouped spelled sound (bare (by simp [group])) group isOpen follows pushed

/-- All tokens, one after the other. -/
theorem hasRead_assemble {pattern : Bytes} {lexemes : List (Lexeme Token)}
    (read : HasRead place done a) (path : Path place (lexemes.map (lexed pattern)) next)
    (assembled : assemble pattern a (lexemes.map .ok) = .ok b) :
    HasRead next (done ++ lexemes.map (lexed pattern)) b := by
  induction lexemes generalizing place done a with
  | nil =>
    cases path
    cases assembled
    simpa using read
  | cons lexeme lexemes ih =>
    cases path with
    | cons follows path =>
      simp only [List.map_cons, assemble] at assembled
      cases pushed : a.push lexeme.kind (lexeme.bytes pattern) lexeme.start with
      | error e => simp [pushed] at assembled
      | ok after =>
        simp only [pushed] at assembled
        have rest := ih (hasRead_push read follows pushed) path assembled
        rwa [List.append_assoc] at rest

theorem hasRead_empty : HasRead .body [] Assembly.empty :=
  ⟨[], [], [], rfl, .nil, .body, Assembly.isSoundFor_empty, by simp [Assembly.empty]⟩

/-- A pattern that is compiled spells items, and its matcher is sound for their language. -/
theorem exists_items_of_parse {pattern : Bytes} {g : Glob} (parsed : parse pattern = .ok g) :
    ∃ items, Spells (tokens pattern) items ∧ g.matcher.IsSoundFor (languageOf items) ∧
      g.whole = g.matcher.push .finish := by
  obtain ⟨lexemes, last, lexes, _, same, path⟩ := exists_path_tokens pattern
  unfold parse at parsed
  simp only [lexes] at parsed
  split at parsed
  · cases parsed
  cases assembled : assemble pattern .empty (lexemes.map .ok) with
  | error e => simp [assembled] at parsed
  | ok a =>
    cases finished : a.finish with
    | error e => simp [assembled, finished] at parsed
    | ok matcher =>
      simp only [assembled, finished, Except.ok.injEq] at parsed
      subst parsed
      obtain ⟨closed, front, items, done, spelled, isOpen, sound, _⟩ :=
        hasRead_assemble hasRead_empty (same ▸ path) assembled
      -- At the end no group is open, so what was read are whole items.
      obtain ⟨outside, matches_sound⟩ := sound.finish finished
      rw [outside] at isOpen
      cases isOpen
      refine ⟨items, ?_, matches_sound, rfl⟩
      rw [List.nil_append, List.append_nil] at done
      rwa [same, done]

/-- A compiled pattern is sound. Its tokens are the whole pattern and spell one sequence of
items. What it matches at a position ends in the input and is in the language of its tokens.
It matches a whole input iff what it matches at the front reaches to the end, and this is what
the anchored pattern matches. -/
theorem parse_sound {pattern : Bytes} {g : Glob} (parsed : parse pattern = .ok g) :
    (tokens pattern).flatMap Prod.snd = pattern ∧ (∃! items, Spells (tokens pattern) items) ∧
      (∀ input start n, g.matchAt input start = some n →
        start + n ≤ input.length ∧
          input.slice start (start + n) ∈ tokenLanguage (tokens pattern)) ∧
        ∀ input, (g.matchesWhole input = true ↔ g.matchFront input = some input.length) ∧
          (g.matchesWhole input = true ↔ (g.anchored.matchFront input).isSome) := by
  obtain ⟨items, spelled, sound, whole⟩ := exists_items_of_parse parsed
  refine ⟨flatMap_tokens pattern, ⟨items, spelled, fun _ other => other.unique spelled⟩, ?_, ?_⟩
  · intro input start n matched
    obtain ⟨inside, member⟩ := Matcher.matchAt_mem sound matched
    exact ⟨inside, items, spelled, member⟩
  · intro input
    refine ⟨?_, Iff.rfl⟩
    rw [matchesWhole, whole]
    exact Matcher.matchFront_push_finish sound input

/-- A star in front of a question mark and an alternation, from the second byte of an input. -/
theorem parse_sound_starredAlternation :
    ∃ g, parse (Bytes.ofText "*?\x7bx,yz\x7d[^a-c]") = .ok g ∧
      g.matchAt (Bytes.ofText "aabyz!!") 1 = some 5 ∧
        (Bytes.ofText "aabyz!!").slice 1 6 ∈
          tokenLanguage (tokens (Bytes.ofText "*?\x7bx,yz\x7d[^a-c]")) := by
  have ran : (parse (Bytes.ofText "*?\x7bx,yz\x7d[^a-c]")).toOption.bind
      (·.matchAt (Bytes.ofText "aabyz!!") 1) = some 5 := by decide +kernel
  cases parsed : parse (Bytes.ofText "*?\x7bx,yz\x7d[^a-c]") with
  | error e => simp [parsed, Except.toOption] at ran
  | ok g =>
    rw [parsed] at ran
    exact ⟨g, rfl, ran, ((parse_sound parsed).2.2.1 _ 1 5 ran).2⟩

end Octets.Glob
