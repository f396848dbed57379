import Mathlib.Computability.Language
import Octets.Proofs.Glob.Tokens

/-!
# Languages of patterns

What a pattern asks for, read off its tokens. The tokens of a pattern spell a sequence of
items, in one way at most: a run of bytes, a star, a question mark, a set, or an alternation.
Each item has a language, and that of a pattern is the product of those of its items. Nothing
here speaks of matchers.

## Main definitions

* `Glob.Item`, `Item.language`, `languageOf` — the items and what they stand for
* `Glob.Members`, `Glob.Names` — the tokens of the members of a set, and of the names of an
  alternation
* `Item.IsSpelled`, `Glob.Spells` — the tokens of an item, and of several items
* `Glob.tokenLanguage` — the language of a sequence of tokens

## Main results

* `Spells.unique` — no two sequences of items are spelled by the same tokens
-/

namespace Octets.Glob

open scoped Computability

/-! ## Items -/

/-- One thing that a pattern asks for. The members of a set are ranges from a least to a
greatest byte. -/
inductive Item where
  | literal (text : Bytes)
  | anyRun
  | anyByte
  | set (negated : Bool) (ranges : List (UInt8 × UInt8))
  | alternation (names : List Bytes)

/-- Whether a byte lies in one of several ranges. -/
def IsInRanges (ranges : List (UInt8 × UInt8)) (b : UInt8) : Prop :=
  ∃ range ∈ ranges, range.1 ≤ b ∧ b ≤ range.2

/-- The byte strings of one byte that has some property. -/
def oneByte (property : UInt8 → Prop) : Language UInt8 := {w | ∃ b, property b ∧ w = [b]}

/-- The byte strings that an item stands for. An alternation without names stands for the
empty one. -/
def Item.language : Item → Language UInt8
  | literal text => {text}
  | anyRun => ⊤
  | anyByte => oneByte fun _ => True
  | set negated ranges => oneByte fun b => IsInRanges ranges b ↔ negated = false
  | alternation [] => 1
  | alternation names => {w | w ∈ names}

/-- The byte strings that several items stand for, one behind the other. -/
def languageOf (items : List Item) : Language UInt8 := (items.map Item.language).prod

theorem languageOf_concat (items : List Item) (item : Item) :
    languageOf (items ++ [item]) = languageOf items * item.language := by
  simp [languageOf]

/-! ## Spellings -/

/-- The tokens of the members of a set: single bytes and ranges. -/
inductive Members : List Lexed → List (UInt8 × UInt8) → Prop
  | nil : Members [] []
  | byte {text : Bytes} {b : UInt8} {rest : List Lexed} {ranges : List (UInt8 × UInt8)} :
      unescape text = [b] → Members rest ranges →
        Members ((.setChar, text) :: rest) ((b, b) :: ranges)
  | range {least dash greatest : Bytes} {low high : UInt8} {rest : List Lexed}
      {ranges : List (UInt8 × UInt8)} :
      unescape least = [low] → unescape greatest = [high] → Members rest ranges →
        Members ((.setChar, least) :: (.setRange, dash) :: (.setChar, greatest) :: rest)
          ((low, high) :: ranges)

/-- The tokens of the names of an alternation, of which there is at least one. -/
inductive Names : List Lexed → List Bytes → Prop
  | one (text : Bytes) : Names [(.alternationName, text)] [unescape text]
  | cons {text comma : Bytes} {rest : List Lexed} {names : List Bytes} :
      Names rest names →
        Names ((.alternationName, text) :: (.alternationComma, comma) :: rest)
          (unescape text :: names)

/-- The mark that negates a set, if it is negated. -/
inductive Mark : Bool → List Lexed → Prop
  | absent : Mark false []
  | present (text : Bytes) : Mark true [(.setNegation, text)]

/-- The tokens of an item. -/
inductive Item.IsSpelled : List Lexed → Item → Prop
  | literal {token : Token} (text : Bytes) :
      token = .name ∨ token = .separator ∨ token = .newline →
        IsSpelled [(token, text)] (literal (unescape text))
  | anyRun (text : Bytes) : IsSpelled [(.anyRun, text)] anyRun
  | anyByte (text : Bytes) : IsSpelled [(.anyByte, text)] anyByte
  | set {mark members : List Lexed} {negated : Bool} {ranges : List (UInt8 × UInt8)}
      (left right : Bytes) :
      Mark negated mark → Members members ranges →
        IsSpelled ((.setOpen, left) :: (mark ++ members) ++ [(.setClose, right)])
          (set negated ranges)
  | emptyAlternation (left right : Bytes) :
      IsSpelled [(.alternationOpen, left), (.alternationClose, right)] (alternation [])
  | alternation {tokens : List Lexed} {names : List Bytes} (left right : Bytes) :
      Names tokens names →
        IsSpelled ((.alternationOpen, left) :: tokens ++ [(.alternationClose, right)])
          (alternation names)

/-- The tokens of several items, one behind the other. -/
inductive Spells : List Lexed → List Item → Prop
  | nil : Spells [] []
  | cons {part rest : List Lexed} {item : Item} {items : List Item} :
      item.IsSpelled part → Spells rest items → Spells (part ++ rest) (item :: items)

/-- The byte strings that a sequence of tokens stands for. -/
def tokenLanguage (tokens : List Lexed) : Language UInt8 :=
  {w | ∃ items, Spells tokens items ∧ w ∈ languageOf items}

/-! ## Spelling from left to right -/

theorem Members.append {first second : List Lexed} {ranges more : List (UInt8 × UInt8)}
    (front : Members first ranges) (back : Members second more) :
    Members (first ++ second) (ranges ++ more) := by
  induction front with
  | nil => exact back
  | byte spelled _ ih => exact .byte spelled ih
  | range least greatest _ ih => exact .range least greatest ih

theorem Names.concat {tokens : List Lexed} {names : List Bytes} (front : Names tokens names)
    (comma text : Bytes) :
    Names (tokens ++ [(.alternationComma, comma), (.alternationName, text)])
      (names ++ [unescape text]) := by
  induction front with
  | one first => exact .cons (.one text)
  | cons _ ih => exact .cons ih

theorem Names.ne_nil {tokens : List Lexed} {names : List Bytes} (spelled : Names tokens names) :
    names ≠ [] := by
  cases spelled <;> exact List.cons_ne_nil _ _

theorem Spells.concat {tokens part : List Lexed} {items : List Item} {item : Item}
    (front : Spells tokens items) (spelled : item.IsSpelled part) :
    Spells (tokens ++ part) (items ++ [item]) := by
  induction front with
  | nil => simpa using Spells.cons spelled .nil
  | cons first _ ih =>
    rw [List.append_assoc]
    exact .cons first ih

/-! ## Only one spelling -/

/-- Where a list goes on with the first element of a kind, it can be cut in one way only. -/
theorem append_cons_inj {α : Type} {p : α → Prop} {xs ys zs ws : List α} {a b : α}
    (left : ∀ x ∈ xs, ¬ p x) (right : ∀ y ∈ ys, ¬ p y) (pa : p a) (pb : p b)
    (same : xs ++ a :: zs = ys ++ b :: ws) : xs = ys ∧ zs = ws := by
  induction xs generalizing ys with
  | nil =>
    cases ys with
    | nil => exact ⟨rfl, (List.cons.inj same).2⟩
    | cons y ys => exact absurd ((List.cons.inj same).1 ▸ pa) (right y List.mem_cons_self)
  | cons x xs ih =>
    cases ys with
    | nil => exact absurd ((List.cons.inj same).1 ▸ pb) (left x List.mem_cons_self)
    | cons y ys =>
      obtain ⟨rfl, tails⟩ := List.cons.inj same
      obtain ⟨rfl, rest⟩ := ih (fun x member => left x (List.mem_cons_of_mem _ member))
        (fun y member => right y (List.mem_cons_of_mem _ member)) tails
      exact ⟨rfl, rest⟩

theorem Members.not_close {tokens : List Lexed} {ranges : List (UInt8 × UInt8)}
    (spelled : Members tokens ranges) : ∀ lexed ∈ tokens, ¬ lexed.1 = .setClose := by
  induction spelled with
  | nil => simp
  | byte _ _ ih => simpa using ih
  | range _ _ _ ih => simpa using ih

theorem Names.not_close {tokens : List Lexed} {names : List Bytes} (spelled : Names tokens names) :
    ∀ lexed ∈ tokens, ¬ lexed.1 = .alternationClose := by
  induction spelled with
  | one => simp
  | cons _ ih => simpa using ih

theorem Members.unique {tokens : List Lexed} {ranges others : List (UInt8 × UInt8)}
    (spelled : Members tokens ranges) (other : Members tokens others) : ranges = others := by
  induction spelled generalizing others with
  | nil =>
    cases other
    rfl
  | byte member rest ih =>
    cases other with
    | byte member' rest' =>
      obtain rfl := List.cons.inj (member.symm.trans member') |>.1
      rw [ih rest']
    | range => cases rest
  | range least greatest rest ih =>
    cases other with
    | byte _ rest' => cases rest'
    | range least' greatest' rest' =>
      obtain rfl := List.cons.inj (least.symm.trans least') |>.1
      obtain rfl := List.cons.inj (greatest.symm.trans greatest') |>.1
      rw [ih rest']

theorem Names.unique {tokens : List Lexed} {names others : List Bytes}
    (spelled : Names tokens names) (other : Names tokens others) : names = others := by
  induction spelled generalizing others with
  | one text =>
    cases other
    rfl
  | cons rest ih =>
    cases other with
    | cons rest' => rw [ih rest']

/-- A mark is told from the first member. -/
theorem Mark.unique {mark mark' members members' : List Lexed} {negated negated' : Bool}
    {ranges ranges' : List (UInt8 × UInt8)} (marked : Mark negated mark)
    (marked' : Mark negated' mark') (spelled : Members members ranges)
    (spelled' : Members members' ranges') (same : mark ++ members = mark' ++ members') :
    negated = negated' ∧ mark = mark' ∧ members = members' := by
  cases marked with
  | absent =>
    cases marked' with
    | absent => exact ⟨rfl, rfl, same⟩
    | present =>
      rw [List.nil_append] at same
      subst same
      cases spelled
  | present =>
    cases marked' with
    | absent =>
      rw [List.nil_append] at same
      subst same
      cases spelled'
    | present => simpa using same

theorem Mark.not_close {mark members : List Lexed} {negated : Bool}
    {ranges : List (UInt8 × UInt8)} (marked : Mark negated mark)
    (spelled : Members members ranges) : ∀ lexed ∈ mark ++ members, ¬ lexed.1 = .setClose := by
  cases marked with
  | absent => exact spelled.not_close
  | present => simpa using spelled.not_close

theorem Item.IsSpelled.ne_nil {part : List Lexed} {item : Item} (spelled : item.IsSpelled part) :
    part ≠ [] := by
  cases spelled <;> simp

/-- Where a sequence of tokens begins with those of an item, it does so in one way only. -/
theorem Item.IsSpelled.unique {part part' rest rest' : List Lexed} {item item' : Item}
    (spelled : item.IsSpelled part) (spelled' : item'.IsSpelled part')
    (same : part ++ rest = part' ++ rest') : item = item' ∧ rest = rest' := by
  -- The first tokens are of the same kind, and so are the items.
  cases spelled with
  | literal text plain =>
    cases spelled' with
    | literal => simp_all
    | _ => obtain rfl | rfl | rfl := plain <;> simp at same
  | anyRun =>
    cases spelled' with
    | literal _ plain => obtain rfl | rfl | rfl := plain <;> simp at same
    | anyRun => exact ⟨rfl, (List.cons.inj same).2⟩
    | _ => simp at same
  | anyByte =>
    cases spelled' with
    | literal _ plain => obtain rfl | rfl | rfl := plain <;> simp at same
    | anyByte => exact ⟨rfl, (List.cons.inj same).2⟩
    | _ => simp at same
  | @set mark members _ _ left right marked listed =>
    cases spelled' with
    | literal _ plain => obtain rfl | rfl | rfl := plain <;> simp at same
    | @set mark' members' _ _ left' right' marked' listed' =>
      have tails : (mark ++ members) ++ (.setClose, right) :: rest =
          (mark' ++ members') ++ (.setClose, right') :: rest' := by
        simpa using (List.cons.inj same).2
      obtain ⟨inside, behind⟩ := append_cons_inj (marked.not_close listed)
        (marked'.not_close listed') rfl rfl tails
      obtain ⟨rfl, rfl, rfl⟩ := marked.unique marked' listed listed' inside
      rw [listed.unique listed']
      exact ⟨rfl, behind⟩
    | _ => simp at same
  | emptyAlternation =>
    cases spelled' with
    | literal _ plain => obtain rfl | rfl | rfl := plain <;> simp at same
    | emptyAlternation => exact ⟨rfl, (List.cons.inj (List.cons.inj same).2).2⟩
    | alternation _ _ names => cases names <;> simp at same
    | _ => simp at same
  | @alternation tokens _ left right names =>
    cases spelled' with
    | literal _ plain => obtain rfl | rfl | rfl := plain <;> simp at same
    | emptyAlternation => cases names <;> simp at same
    | @alternation tokens' _ left' right' names' =>
      have tails : tokens ++ (.alternationClose, right) :: rest =
          tokens' ++ (.alternationClose, right') :: rest' := by
        simpa using (List.cons.inj same).2
      obtain ⟨rfl, behind⟩ := append_cons_inj names.not_close names'.not_close rfl rfl tails
      rw [names.unique names']
      exact ⟨rfl, behind⟩
    | _ => simp at same

/-- No two sequences of items are spelled by the same tokens. -/
theorem Spells.unique {tokens : List Lexed} {items others : List Item}
    (spelled : Spells tokens items) (other : Spells tokens others) : items = others := by
  generalize same : tokens = tokens' at other
  induction spelled generalizing tokens' others with
  | nil =>
    cases other with
    | nil => rfl
    | cons first _ => exact absurd (List.append_eq_nil_iff.mp same.symm).1 first.ne_nil
  | cons first rest ih =>
    cases other with
    | nil => exact absurd (List.append_eq_nil_iff.mp same).1 first.ne_nil
    | cons first' rest' =>
      obtain ⟨rfl, rfl⟩ := first.unique first' same
      rw [ih _ rfl rest']

end Octets.Glob
