import Octets.Proofs.Glob.Reading
import Octets.Proofs.Glob.Soundness
import Octets.Proofs.Glob.Written

/-!
# Compiling written patterns

A pattern that is written item by item is compiled, and its matcher is put together from the
items alone, in whichever way they are written down.

A pattern is read from the left, but what is known of it grows from the right: a run of bytes
goes on as long as no special byte comes, so the token in front of some text depends on that
text. What has been read of a group remembers where the group began, and the assembly is
therefore followed from all the offsets at once.

## Main definitions

* `Glob.Compiles` — what the rest of a line makes of an assembly
* `Assembly.addItem`, `Assembly.finished` — one more item, and the matcher at the end

## Main results

* `compiles_byte` — one more byte in front of a run
* `compiles_members`, `compiles_names` — what stands in a group, up to the end of the group
* `IsWritten.compiles` — the items one after the other
* `parse_of_isWritten` — a pattern that is written like this is compiled
-/

namespace Octets

namespace Glob

/-! ## The rest of a line -/

/-- Read on from a state, the rest of the line makes one assembly of another. It is the same one
for all offsets at which an open group may have begun. -/
def Compiles (s : State) (unread : Bytes) (a : Nat → Assembly) (z : Assembly) : Prop :=
  ∃ listed, LineTokens s unread listed ∧ ∀ offset, Assembly.Becomes listed (a offset) z

/-- More text for the literal. -/
def Assembly.addText (a : Assembly) (text : Bytes) : Assembly :=
  { a with literal := a.literal ++ text }

@[simp] theorem Assembly.addText_addText (a : Assembly) (first second : Bytes) :
    (a.addText first).addText second = a.addText (first ++ second) :=
  congrArg (Assembly.mk _ · _ _) (List.append_assoc _ _ _)

variable {s next : State} {a b z : Assembly} {text behind : Bytes} {token : Token} {c : Cursor}
  {first : UInt8} {rest : Bytes}

theorem compiles_nil (s : State) (a : Assembly) : Compiles s [] (fun _ => a) a :=
  ⟨[], .nil s, fun _ => rfl⟩

/-- One more token in front of the rest of the line. -/
theorem compiles_token {a b : Nat → Assembly} (reads : ReadsToken s text behind token next)
    (pushes : ∀ i offset, ∃ j, (a i).push token text offset = .ok (b j))
    (compiles : Compiles next behind b z) : Compiles s (text ++ behind) a z := by
  obtain ⟨listed, spells, becomes⟩ := compiles
  refine ⟨(token, text) :: listed, .cons reads spells, fun i offset => ?_⟩
  obtain ⟨j, pushed⟩ := pushes i offset
  exact ⟨b j, pushed, becomes j⟩

/-- A token of one byte. -/
theorem compiles_first {a b : Nat → Assembly}
    (reads : ∀ c : Cursor, c.rest = first :: behind →
      readToken s c = .reads token next (c.advance 1))
    (pushes : ∀ i offset, ∃ j, (a i).push token [first] offset = .ok (b j))
    (compiles : Compiles next behind b z) : Compiles s (first :: behind) a z := by
  have here : ReadsToken s [first] behind token next := ⟨List.cons_ne_nil _ _, reads⟩
  exact compiles_token here pushes compiles

/-! ## Outside of groups -/

theorem read?_mark (unread : c.rest = first :: rest) (b : UInt8) :
    c.read? (mark b) = if first = b then some (c.advance 1) else none := by
  simp only [Cursor.read?, unread, mark, Scan.byte, beq_iff_eq]
  split <;> rfl

theorem ne_backslash_of_isContext {b : UInt8} (special : isContext b = true) :
    b ≠ Byte.backslash := by
  rintro rfl
  exact absurd special (by decide)

/-- A run of bytes ends where the first special one comes. -/
theorem readBody_of_plain (unread : c.rest = first :: rest) (plain : isContext first = false) :
    readBody c =
      Move.reads .name .body (c.advance (Scan.unescapedLength isContext (first :: rest))) := by
  have positive : 0 < Scan.unescapedLength isContext (first :: rest) := by
    by_cases escape : first = Byte.backslash
    · subst escape
      cases rest <;> simp [Scan.unescapedLength]
    · rw [Scan.unescapedLength_plain escape plain]
      exact Nat.add_pos_left Nat.one_pos _
  have run : c.read? (Scan.upToUnescaped isContext) =
      some (c.advance (Scan.unescapedLength isContext (first :: rest))) := by
    rw [Cursor.read?, unread, Scan.upToUnescaped, Scan.nonzero, if_neg (Nat.ne_of_gt positive)]
    rfl
  simp only [isContext, Bool.or_eq_false_iff, beq_eq_false_iff_ne] at plain
  obtain ⟨⟨⟨⟨slash, asterisk⟩, question⟩, brace⟩, bracket⟩ := plain
  simp only [readBody, read?_mark unread, if_neg slash, if_neg asterisk, if_neg question,
    if_neg brace, if_neg bracket, run]

theorem readsToken_name (plain : isContext first = false)
    (length : Scan.unescapedLength isContext (first :: rest ++ behind) = (first :: rest).length) :
    ReadsToken .body (first :: rest) behind .name .body := by
  refine ⟨List.cons_ne_nil _ _, fun c unread => ?_⟩
  rw [readToken, readBody_of_plain unread plain]
  exact congrArg (fun n => Move.reads .name .body (c.advance n)) length

/-- In front of a run, the token that is read is the run. -/
theorem ReadsToken.name_of_plain (reads : ReadsToken .body text behind token next)
    (unread : text ++ behind = first :: rest) (plain : isContext first = false) :
    token = .name ∧ next = .body ∧
      Scan.unescapedLength isContext (text ++ behind) = text.length := by
  have read := reads.2 (Cursor.ofBytes (text ++ behind)) (Cursor.rest_ofBytes _)
  have unread' : (Cursor.ofBytes (text ++ behind)).rest = first :: rest :=
    (Cursor.rest_ofBytes _).trans unread
  rw [readToken, readBody_of_plain unread' plain, ← unread] at read
  simpa [Move.reads, Cursor.advance, eq_comm] using read

/-- A token of plain text. -/
theorem push_text (outside : a.group = none) (kind : token = .name ∨ token = .separator)
    (text : Bytes) (offset : Nat) : a.push token text offset = .ok (a.addText (unescape text)) := by
  obtain rfl | rfl := kind <;> simp [Assembly.push, outside, Assembly.pushPlain, Assembly.addText]

/-- One more byte in front of the rest of a line. If a run of bytes begins there, it begins
earlier now. -/
theorem compiles_byte {w : Bytes} {b : UInt8} (outside : a.group = none)
    (plain : isContext first = false) (written : w = first :: rest)
    (length : ∀ more, Scan.unescapedLength isContext (w ++ more) =
      w.length + Scan.unescapedLength isContext more)
    (means : ∀ more, unescape (w ++ more) = b :: unescape more)
    (compiles : Compiles .body behind (fun _ => a.addText [b]) z) :
    Compiles .body (w ++ behind) (fun _ => a) z := by
  subst written
  obtain ⟨listed, spells, becomes⟩ := compiles
  -- A run behind the byte becomes longer by it. Otherwise the byte is a run of its own.
  by_cases run : ∃ second more, behind = second :: more ∧ isContext second = false
  · obtain ⟨second, more, unread, plain'⟩ := run
    generalize reading : behind = line at spells
    cases spells with
    | nil => simp [reading] at unread
    | @cons _ next text behind' token listed reads spells =>
      obtain ⟨rfl, rfl, short⟩ := reads.name_of_plain (reading.symm.trans unread) plain'
      have name : ReadsToken .body (first :: (rest ++ text)) behind' .name .body := by
        refine readsToken_name plain ?_
        have all := length (text ++ behind')
        rw [short, ← List.append_assoc] at all
        rw [← List.cons_append, all, List.length_append]
      rw [← List.append_assoc]
      refine ⟨_, .cons name spells, fun offset position => ⟨_, push_text outside (.inl rfl) _ _, ?_⟩⟩
      -- The run stands for the byte and for what it stood for without it.
      obtain ⟨middle, pushed, becomes⟩ := becomes offset position
      have outside' : (a.addText [b]).group = none := outside
      have shorter : (a.addText [b]).addText (unescape text) = middle :=
        Except.ok.inj ((push_text outside' (.inl rfl) text position).symm.trans pushed)
      rwa [means, show b :: unescape text = [b] ++ unescape text from rfl,
        ← Assembly.addText_addText, shorter]
  · have ends : Scan.unescapedLength isContext behind = 0 := by
      cases behind with
      | nil => rfl
      | cons second more =>
        have special : isContext second = true :=
          Bool.not_eq_false _ ▸ fun plain' => run ⟨second, more, rfl, plain'⟩
        exact Scan.unescapedLength_of_class special (ne_backslash_of_isContext special)
    have name : ReadsToken .body (first :: rest) behind .name .body :=
      readsToken_name plain (by rw [length, ends, Nat.add_zero])
    refine ⟨_, .cons name spells, fun offset position => ⟨_, push_text outside (.inl rfl) _ _, ?_⟩⟩
    have alone := means []
    rw [List.append_nil] at alone
    rw [alone]
    exact becomes offset

theorem compiles_escaped {b : UInt8} (outside : a.group = none)
    (compiles : Compiles .body behind (fun _ => a.addText [b]) z) :
    Compiles .body (Byte.backslash :: b :: behind) (fun _ => a) z := by
  have written : [Byte.backslash, b] ++ behind = Byte.backslash :: b :: behind := rfl
  rw [← written]
  exact compiles_byte outside (by decide) rfl (fun _ => Scan.unescapedLength_escaped)
    (unescape_escaped b) compiles

theorem compiles_separator (outside : a.group = none)
    (compiles : Compiles .body behind (fun _ => a.addText [Byte.slash]) z) :
    Compiles .body (Byte.slash :: behind) (fun _ => a) z := by
  refine compiles_first (fun c unread => ?_)
    (fun _ offset => ⟨0, push_text outside (.inr rfl) _ offset⟩) compiles
  simp only [readToken, readBody, read?_mark unread, if_true]

/-- A byte that means itself. The slash is a token of its own. -/
theorem compiles_plain {b : UInt8} (outside : a.group = none) (plain : isSpecial b = false)
    (unescaped : b ≠ Byte.backslash)
    (compiles : Compiles .body behind (fun _ => a.addText [b]) z) :
    Compiles .body (b :: behind) (fun _ => a) z := by
  by_cases slash : b = Byte.slash
  · subst slash
    exact compiles_separator outside compiles
  · have inside : isContext b = false := by
      obtain ⟨asterisk, question, bracket, brace⟩ := isSpecial_eq_false_iff.mp plain
      simp [isContext, slash, asterisk, question, bracket, brace]
    have written : [b] ++ behind = b :: behind := rfl
    rw [← written]
    exact compiles_byte outside inside rfl
      (fun _ => Scan.unescapedLength_plain unescaped inside) (unescape_plain unescaped) compiles

theorem compiles_literal {w : Bytes} (written : IsEscaped isSpecial w text)
    (outside : a.group = none) (compiles : Compiles .body behind (fun _ => a.addText w) z) :
    Compiles .body (text ++ behind) (fun _ => a) z := by
  -- The byte in front is text of the assembly when the bytes behind it are compiled.
  induction written generalizing a with
  | nil => rwa [show a.addText [] = a from congrArg (Assembly.mk _ · _ _) (List.append_nil _)]
      at compiles
  | plain plain unescaped _ _ ih =>
    rw [List.cons_append]
    refine compiles_plain outside plain unescaped (ih outside ?_)
    rwa [Assembly.addText_addText]
  | escaped _ _ ih =>
    rw [List.cons_append, List.cons_append]
    refine compiles_escaped outside (ih outside ?_)
    rwa [Assembly.addText_addText]

/-! ## Items for an assembly -/

/-- The class of the bytes in some ranges. -/
def rangeTable (ranges : List (UInt8 × UInt8)) : LeadTable :=
  .ofClass <| Byte.all.filter fun b => ranges.any fun range => range.1 ≤ b && b ≤ range.2

/-- The step of a set, with a star in front of it or not. -/
def setStep (anyRun negated : Bool) (cls : LeadTable) : Matcher.Step :=
  match anyRun, negated with
  | false, false => .lead cls
  | false, true => .noLead cls
  | true, false => .throughEntry cls
  | true, true => .throughEntry cls.complement

/-- The step of an alternation, with a star in front of it or not. -/
def alternationStep (anyRun : Bool) (names : List Bytes) : Matcher.Step :=
  if anyRun then .throughEntry (.ofSequences names) else .entry (.ofSequences names)

namespace Assembly

/-- A group is open. -/
def opened (a : Assembly) (group : Group) : Assembly := { a with group := some group }

/-- The step of a group that is closed uses up a star that waits. -/
def closed (a : Assembly) (step : Matcher.Step) : Assembly :=
  { a with matcher := a.matcher.push step, anyRun := false, group := none }

/-- One more item. -/
def addItem (a : Assembly) : Item → Assembly
  | .literal text => a.addText text
  | .anyRun => { a.flushLiteral with anyRun := true }
  | .anyByte => a.flushLiteral.addStep .any
  | .set negated ranges =>
    a.flushLiteral.closed (setStep a.flushLiteral.anyRun negated (rangeTable ranges))
  | .alternation [] => a.flushLiteral
  | .alternation names => a.flushLiteral.closed (alternationStep a.flushLiteral.anyRun names)

/-- The matcher at the end, where no group is open. -/
def finished (a : Assembly) : Matcher :=
  if a.flushLiteral.anyRun then a.flushLiteral.matcher.push .remainder else a.flushLiteral.matcher

theorem finish_of_outside (outside : a.group = none) : a.finish = .ok a.finished := by
  simp [finish, outside, finished]

theorem group_addItem (outside : a.group = none) (item : Item) : (a.addItem item).group = none := by
  cases item with
  | literal => exact outside
  | anyRun => exact (group_flushLiteral a).trans outside
  | anyByte => exact (group_flushLiteral a).trans outside
  | set => rfl
  | alternation names =>
    cases names with
    | nil => exact (group_flushLiteral a).trans outside
    | cons => rfl

end Assembly

theorem mem_rangeBytes {ranges : List (UInt8 × UInt8)} {b : UInt8} :
    (b ∈ Byte.all.filter fun b => ranges.any fun range => range.1 ≤ b && b ≤ range.2) ↔
      IsInRanges ranges b := by
  simp [IsInRanges, Byte.mem_all]

/-- Members that come from the same ranges make the same class. -/
theorem ofClass_of_lists {members : Bytes} {ranges : List (UInt8 × UInt8)}
    (lists : Lists members ranges) : LeadTable.ofClass members = rangeTable ranges := by
  ext1 b
  have same : b ∈ members ↔ b ∈ Byte.all.filter fun b =>
      ranges.any fun range => range.1 ≤ b && b ≤ range.2 := (lists b).trans mem_rangeBytes.symm
  simp only [rangeTable, LeadTable.group_ofClass, same]

/-! ## Sets -/

/-- The states in which a member may come. -/
def TakesMember (s : State) : Prop := s = .setFirst ∨ s = .setNegated ∨ s = .set

theorem accept_mark (unread : c.rest = first :: rest) (b : UInt8) :
    c.accept (mark b) = if first = b then (true, c.advance 1) else (false, c) := by
  by_cases same : first = b <;> simp [Cursor.accept, read?_mark unread, same]

theorem next_cons (unread : c.rest = first :: rest) : c.next = some (first, c.advance 1) := by
  rw [Cursor.next, Cursor.peek, unread]
  rfl

theorem rest_advance_one (unread : c.rest = first :: rest) : (c.advance 1).rest = rest := by
  rw [Cursor.rest_advance, unread]
  rfl

/-- A byte without a meaning of its own is a member, in front of which nothing else is tried. -/
theorem readToken_of_takesMember (member : TakesMember s) (unread : c.rest = first :: rest)
    (plain : isSetMark first = false) : readToken s c = readMember s c := by
  obtain ⟨bracket, -, negation⟩ := isSetMark_eq_false_iff.mp plain
  have peeked : c.peek ≠ some Byte.rightBracket := by
    rw [Cursor.peek, unread]
    simpa using bracket
  have negates : c.read? (Scan.byte isNegation) = none := by
    simp [Cursor.read?, unread, Scan.byte, negation]
  obtain rfl | rfl | rfl := member
  · simp only [readToken, if_neg peeked, negates]
  · simp only [readToken, if_neg peeked]
  · simp only [readToken, read?_mark unread, if_neg bracket]

theorem readMember_plain (unread : c.rest = first :: rest) (plain : first ≠ Byte.backslash) :
    readMember s c = .reads .setChar (afterMember false first rest) (c.advance 1) := by
  simp only [readMember, accept_mark unread, if_neg plain, next_cons unread,
    rest_advance_one unread]

theorem readMember_escaped (unread : c.rest = Byte.backslash :: first :: rest) :
    readMember s c = .reads .setChar .set (c.advance 2) := by
  have unread' := rest_advance_one unread
  simp only [readMember, accept_mark unread, if_true, next_cons unread', rest_advance_one unread',
    afterMember_of_escaped]
  rfl

/-- A single byte of a set, in front of which no range begins. -/
theorem readsToken_byte (member : TakesMember s) (written : IsEscaped isSetMark [first] text)
    (apart : behind.head? ≠ some Byte.minus) : ReadsToken s text behind .setChar .set := by
  obtain ⟨plain, unescaped, rfl⟩ | rfl := written.singleton
  · refine ⟨List.cons_ne_nil _ _, fun c unread => ?_⟩
    have unread' : c.rest = first :: behind := unread
    have after : afterMember false first behind = .set := by
      unfold afterMember
      split
      · exact if_neg fun dash => apart (by simp [dash.1])
      · rfl
    rw [readToken_of_takesMember member unread' plain, readMember_plain unread' unescaped, after]
    rfl
  · refine ⟨List.cons_ne_nil _ _, fun c unread => ?_⟩
    have unread' : c.rest = Byte.backslash :: first :: behind := unread
    rw [readToken_of_takesMember member unread' (by decide), readMember_escaped unread']
    rfl

/-- A set that is open, whose members so far come from some ranges. -/
def openSet (a : Assembly) (negated : Bool) (members : Bytes) (inRange : Bool) (offset : Nat) :
    Assembly := a.opened (.set offset negated members inRange)

theorem push_setChar {negated inRange : Bool} {members more : Bytes} {b : UInt8}
    (member : text.getLast? = some b)
    (added : Assembly.addMember members inRange b = (more, false)) (i offset : Nat) :
    (openSet a negated members inRange i).push .setChar text offset =
      .ok (openSet a negated more false i) := by
  simp [openSet, Assembly.opened, Assembly.push, Assembly.pushGrouped, member, added]

theorem addMember_outside (members : Bytes) (b : UInt8) :
    Assembly.addMember members false b = (members ++ [b], false) := by
  unfold Assembly.addMember
  split <;> simp_all

theorem addMember_inside (members : Bytes) (low high : UInt8) :
    Assembly.addMember (members ++ [low]) true high =
      (members ++ [low] ++ rangeAbove low high, false) := by
  simp [Assembly.addMember]

/-- The members of a set, up to the bracket that closes it. -/
theorem compiles_members {ranges before : List (UInt8 × UInt8)} {negated : Bool} {members : Bytes}
    (written : WrittenMembers ranges text) (member : TakesMember s)
    (some_member : ranges ≠ [] ∨ s = .set) (lists : Lists members before)
    (compiles : Compiles .body behind
      (fun _ => a.closed (setStep a.anyRun negated (rangeTable (before ++ ranges)))) z) :
    Compiles s (text ++ Byte.rightBracket :: behind) (openSet a negated members false) z := by
  -- The first member may come in any of three states, each further one in the same.
  induction written generalizing s before members with
  | nil =>
    obtain rfl := some_member.resolve_left fun absent => absent rfl
    rw [List.append_nil, ← ofClass_of_lists lists] at compiles
    have closes (c : Cursor) (unread : c.rest = Byte.rightBracket :: behind) :
        readToken .set c = .reads .setClose .body (c.advance 1) := by
      simp only [readToken, read?_mark unread, if_true]
    exact compiles_first closes (fun i offset => ⟨0, rfl⟩) compiles
  | @byte b text rest ranges byte written ih =>
    have last : text.getLast? = some b := by
      obtain ⟨-, -, rfl⟩ | rfl := byte.singleton <;> rfl
    have reads := readsToken_byte member byte (written.head?_ne_minus behind)
    have rest := ih (.inr (.inr rfl)) (.inr rfl) (lists.byte b)
      (by rwa [List.append_assoc])
    rw [List.append_assoc]
    exact compiles_token reads
      (fun i offset => ⟨i, push_setChar last (addMember_outside members b) i offset⟩) rest
  | @range low high text ranges range written ih =>
    obtain ⟨plain, unescaped, -⟩ := plain_of_isAlphaNumeric range.isAlphaNumeric.1
    have rest := ih (.inr (.inr rfl)) (.inr rfl) (lists.range range.1)
      (by rwa [List.append_assoc])
    have lower (c : Cursor)
        (unread : c.rest = low :: Byte.minus :: high :: (text ++ Byte.rightBracket :: behind)) :
        readToken s c = .reads .setChar .setDash (c.advance 1) := by
      rw [readToken_of_takesMember member unread plain, readMember_plain unread unescaped]
      simp [afterMember, range.isRange]
    have dash (c : Cursor)
        (unread : c.rest = Byte.minus :: high :: (text ++ Byte.rightBracket :: behind)) :
        readToken .setDash c = .reads .setRange .setRangeEnd (c.advance 1) := by
      simp only [readToken, read?_mark unread, if_true]
    have upper (c : Cursor) (unread : c.rest = high :: (text ++ Byte.rightBracket :: behind)) :
        readToken .setRangeEnd c = .reads .setChar .set (c.advance 1) := by
      simp only [readToken, next_cons unread]
    have marked (i offset : Nat) : (openSet a negated (members ++ [low]) false i).push .setRange
        [Byte.minus] offset = .ok (openSet a negated (members ++ [low]) true i) := rfl
    exact compiles_first lower
        (fun i offset => ⟨i, push_setChar rfl (addMember_outside members low) i offset⟩) <|
      compiles_first dash (fun i offset => ⟨i, marked i offset⟩) <|
        compiles_first upper
          (fun i offset => ⟨i, push_setChar rfl (addMember_inside members low high) i offset⟩) rest

theorem compiles_set {negated : Bool} {ranges : List (UInt8 × UInt8)} {mark : Bytes}
    (marked : WrittenMark negated mark) (written : WrittenMembers ranges text)
    (some_member : ranges ≠ []) (outside : a.group = none)
    (compiles : Compiles .body behind (fun _ => a.addItem (.set negated ranges)) z) :
    Compiles .body (Byte.leftBracket :: (mark ++ (text ++ Byte.rightBracket :: behind)))
      (fun _ => a) z := by
  have opens (c : Cursor) (unread : c.rest = Byte.leftBracket ::
      (mark ++ (text ++ Byte.rightBracket :: behind))) :
      readToken .body c = .reads .setOpen .setFirst (c.advance 1) := by
    simp +decide [readToken, readBody, read?_mark unread]
  have opened (i offset : Nat) : a.push .setOpen [Byte.leftBracket] offset =
      .ok (openSet a.flushLiteral false [] false offset) := by
    simp [Assembly.push, outside, Assembly.pushPlain, openSet, Assembly.opened]
  refine compiles_first opens (fun i offset => ⟨offset, opened i offset⟩) ?_
  cases marked with
  | absent =>
    exact compiles_members written (.inl rfl) (.inl some_member) lists_nil compiles
  | @present b negates =>
    have negation (c : Cursor) (unread : c.rest = b :: (text ++ Byte.rightBracket :: behind)) :
        readToken .setFirst c = .reads .setNegation .setNegated (c.advance 1) := by
      have peeked : c.peek ≠ some Byte.rightBracket := by
        rw [Cursor.peek, unread]
        rintro bracket
        obtain rfl : b = Byte.rightBracket := by simpa using bracket
        exact absurd negates (by decide)
      have read : c.read? (Scan.byte isNegation) = some (c.advance 1) := by
        simp [Cursor.read?, unread, Scan.byte, negates]
      simp only [readToken, if_neg peeked, read]
    refine compiles_first negation (fun i offset => ⟨i, rfl⟩) ?_
    exact compiles_members written (.inr (.inl rfl)) (.inl some_member) lists_nil compiles

/-! ## Alternations -/

/-- The states in which a name may come. -/
def TakesName (s : State) : Prop := s = .alternationFirst ∨ s = .alternationName

/-- An alternation that is open, with the names so far. -/
def openAlternation (a : Assembly) (names : List Bytes) (offset : Nat) : Assembly :=
  a.opened (.alternation offset names)

/-- A name of an alternation, up to the separator that follows it. -/
theorem readsToken_alternationName {name : Bytes} (takes : TakesName s) (some_byte : name ≠ [])
    (written : IsEscaped isSeparator name text) (ends : isSeparator first = true) :
    ReadsToken s text (first :: rest) .alternationName .alternationSeparator := by
  have plain : first ≠ Byte.backslash := by
    rintro rfl
    exact absurd ends (by decide)
  have length : text.length ≠ 0 := by
    cases written <;> simp at some_byte ⊢
  refine ⟨List.ne_nil_of_length_pos (Nat.pos_of_ne_zero length), fun c unread => ?_⟩
  have run : readName s c = .reads .alternationName .alternationSeparator
      (c.advance text.length) := by
    simp [readName, Cursor.read?, unread, Scan.upToUnescaped, Scan.nonzero,
      written.unescapedLength ends plain, length]
  obtain rfl | rfl := takes
  · have closes : c.read? (mark Byte.rightBrace) = none := by
      cases written with
      | nil => exact absurd rfl some_byte
      | plain inside _ _ _ =>
        simp only [isSeparator, Bool.or_eq_false_iff, beq_eq_false_iff_ne] at inside
        rw [read?_mark unread, if_neg inside.2]
      | escaped _ _ => rw [read?_mark unread, if_neg (by decide)]
    simp only [readToken, closes, run]
  · exact run

/-- The names of an alternation, up to the brace that closes it. -/
theorem compiles_names {names before : List Bytes} (written : WrittenNames names text)
    (takes : TakesName s)
    (compiles : Compiles .body behind
      (fun _ => a.closed (alternationStep a.anyRun (before ++ names))) z) :
    Compiles s (text ++ Byte.rightBrace :: behind) (openAlternation a before) z := by
  have pushed (before : List Bytes) {name text : Bytes} (written : IsEscaped isSeparator name text)
      (i offset : Nat) : (openAlternation a before i).push .alternationName text offset =
        .ok (openAlternation a (before ++ [name]) i) := by
    simp [openAlternation, Assembly.opened, Assembly.push, Assembly.pushGrouped, written.unescape]
  induction written generalizing s before with
  | @one name text some_byte written =>
    -- Closing an alternation adds a step only if there is a name, and here there is one.
    obtain ⟨first, others, more⟩ : ∃ first others, before ++ [name] = first :: others :=
      List.exists_cons_of_ne_nil (List.append_ne_nil_of_right_ne_nil before (List.cons_ne_nil _ _))
    have closes (c : Cursor) (unread : c.rest = Byte.rightBrace :: behind) :
        readToken .alternationSeparator c = .reads .alternationClose .body (c.advance 1) := by
      simp +decide [readToken, read?_mark unread]
    have closed (i offset : Nat) : (openAlternation a (before ++ [name]) i).push .alternationClose
        [Byte.rightBrace] offset = .ok (a.closed (alternationStep a.anyRun (before ++ [name]))) := by
      rw [more]
      rfl
    exact compiles_token (readsToken_alternationName takes some_byte written (by decide))
      (fun i offset => ⟨i, pushed before written i offset⟩) <|
        compiles_first closes (fun i offset => ⟨0, closed i offset⟩) compiles
  | @cons name text rest names some_byte written _ ih =>
    have comma (c : Cursor)
        (unread : c.rest = Byte.comma :: (rest ++ Byte.rightBrace :: behind)) :
        readToken .alternationSeparator c =
          .reads .alternationComma .alternationName (c.advance 1) := by
      simp [readToken, read?_mark unread]
    have others : Compiles .alternationName (rest ++ Byte.rightBrace :: behind)
        (openAlternation a (before ++ [name])) z := ih (.inr rfl) (by rwa [List.append_assoc])
    rw [List.append_assoc]
    exact compiles_token (readsToken_alternationName takes some_byte written (by decide))
      (fun i offset => ⟨i, pushed before written i offset⟩) <|
        compiles_first comma (fun i offset => ⟨i, rfl⟩) others

theorem compiles_alternation {names : List Bytes} (written : WrittenNames names text)
    (outside : a.group = none)
    (compiles : Compiles .body behind (fun _ => a.addItem (.alternation names)) z) :
    Compiles .body (Byte.leftBrace :: (text ++ Byte.rightBrace :: behind)) (fun _ => a) z := by
  have opens (c : Cursor)
      (unread : c.rest = Byte.leftBrace :: (text ++ Byte.rightBrace :: behind)) :
      readToken .body c = .reads .alternationOpen .alternationFirst (c.advance 1) := by
    simp +decide [readToken, readBody, read?_mark unread]
  have opened (i offset : Nat) : a.push .alternationOpen [Byte.leftBrace] offset =
      .ok (openAlternation a.flushLiteral [] offset) := by
    simp [Assembly.push, outside, Assembly.pushPlain, openAlternation, Assembly.opened]
  refine compiles_first opens (fun i offset => ⟨offset, opened i offset⟩) ?_
  refine compiles_names written (.inl rfl) ?_
  cases written <;> exact compiles

/-! ## Items -/

/-- A star is as long as the stars that stand there. -/
theorem compiles_anyRun (written : Item.anyRun.IsWritten text)
    (apart : behind.head? ≠ some Byte.asterisk) (outside : a.group = none)
    (compiles : Compiles .body behind (fun _ => a.addItem .anyRun) z) :
    Compiles .body (text ++ behind) (fun _ => a) z := by
  have pushed (text : Bytes) (offset : Nat) :
      a.push .anyRun text offset = .ok (a.addItem .anyRun) := by
    simp [Assembly.push, outside, Assembly.pushPlain, Assembly.addItem]
  have star (c : Cursor) (more : Bytes) (unread : c.rest = Byte.asterisk :: more) :
      readToken .body c =
        .reads .anyRun .body ((c.advance 1).accept (mark Byte.asterisk)).2 := by
    simp +decide [readToken, readBody, read?_mark unread]
  have reads : ReadsToken .body text behind .anyRun .body := by
    cases written with
    | star =>
      refine ⟨List.cons_ne_nil _ _, fun c unread => ?_⟩
      have behind_star := rest_advance_one unread
      rw [star c _ unread]
      cases behind with
      | nil => simp [Cursor.accept, Cursor.read?, behind_star, mark, Scan.byte]
      | cons first more =>
        have other : first ≠ Byte.asterisk := by simpa using apart
        rw [accept_mark behind_star, if_neg other]
        rfl
    | stars =>
      refine ⟨List.cons_ne_nil _ _, fun c unread => ?_⟩
      rw [star c _ unread, accept_mark (rest_advance_one unread), if_pos rfl]
      rfl
  exact compiles_token reads (fun i offset => ⟨0, pushed text offset⟩) compiles

theorem compiles_item {item : Item} (written : item.IsWritten text)
    (apart : item = .anyRun → behind.head? ≠ some Byte.asterisk) (outside : a.group = none)
    (compiles : Compiles .body behind (fun _ => a.addItem item) z) :
    Compiles .body (text ++ behind) (fun _ => a) z := by
  cases written with
  | literal written => exact compiles_literal written outside compiles
  | star => exact compiles_anyRun .star (apart rfl) outside compiles
  | stars => exact compiles_anyRun .stars (apart rfl) outside compiles
  | anyByte =>
    have reads (c : Cursor) (unread : c.rest = Byte.question :: behind) :
        readToken .body c = .reads .anyByte .body (c.advance 1) := by
      simp +decide [readToken, readBody, read?_mark unread]
    have pushed (offset : Nat) :
        a.push .anyByte [Byte.question] offset = .ok (a.addItem .anyByte) := by
      simp [Assembly.push, outside, Assembly.pushPlain, Assembly.addItem]
    exact compiles_first reads (fun i offset => ⟨0, pushed offset⟩) compiles
  | set marked written some_member =>
    simpa using compiles_set marked written some_member outside compiles
  | alternation written =>
    simpa using compiles_alternation written outside compiles

theorem IsWritten.compiles {items : List Item} (written : IsWritten items text)
    (apart : IsApart items) (outside : a.group = none) :
    Compiles .body text (fun _ => a) (items.foldl Assembly.addItem a) := by
  induction written generalizing a with
  | nil => exact compiles_nil .body a
  | cons first others ih =>
    obtain ⟨begins, apart⟩ := List.isChain_cons.mp apart
    refine compiles_item first (fun star => ?_) outside
      (ih apart (Assembly.group_addItem outside _))
    cases others with
    | nil => simp
    | cons next _ => exact next.head?_ne_asterisk (begins _ rfl star)

theorem Assembly.group_foldl_addItem (outside : a.group = none) (items : List Item) :
    (items.foldl Assembly.addItem a).group = none := by
  induction items generalizing a with
  | nil => exact outside
  | cons item items ih => exact ih (group_addItem outside item)

/-- A pattern that is written item by item is compiled to the matcher of its items. -/
theorem parse_of_isWritten {items : List Item} {pattern : Bytes} (written : IsWritten items pattern)
    (apart : IsApart items) (some_byte : pattern ≠ []) :
    let m := (items.foldl Assembly.addItem .empty).finished
    parse pattern = .ok ⟨pattern, m, m.push .finish⟩ := by
  have outside : Assembly.empty.group = none := rfl
  obtain ⟨listed, spells, becomes⟩ := written.compiles apart outside
  exact parse_of_becomes some_byte (.last written.not_mem spells) (becomes 0)
    (Assembly.finish_of_outside (Assembly.group_foldl_addItem outside items))

end Glob

end Octets
