import Octets.Cursor.Command
import Octets.Lexer

/-!
# Rule tables

A tokenizer written down as a table: each state has a list of rules, and a rule
has commands to read with. The first rule whose commands all succeed decides;
the cursor is given back whole between one rule and the next. A state without
rules, or whose rules all fail, refuses.

## Main definitions

* `Rule`, `RuleTable` — the rules of each state, and the special states
* `RuleTable.tokenizer` — the tokenizer that a table describes
-/

namespace Octets

/-- Commands, with what follows when all of them succeed: the kind of the run, or
a refusal, and the next state, or no change. -/
structure Rule (σ κ : Type) where
  commands : List Command
  kind : Option κ
  goto : Option σ

/-- The rules of each state. -/
structure RuleTable (σ κ : Type) where
  initial : σ
  space : Option σ
  fallback : Option σ
  newline : Option κ
  rules : σ → List (Rule σ κ)

namespace RuleTable

variable {σ κ : Type}

/-- The first rule whose commands all succeed at the cursor. -/
def applyRules (state : σ) : List (Rule σ κ) → Cursor → Transition Unit σ κ
  | [], c => ⟨none, (), state, c⟩
  | rule :: rules, c =>
    match Command.tryAll rule.commands c with
    | (true, after) => ⟨rule.kind, (), rule.goto.getD state, after⟩
    | (false, _) => applyRules state rules c

/-- The tokenizer that a table describes. -/
def tokenizer (table : RuleTable σ κ) : Tokenizer Unit σ κ where
  initial _ := table.initial
  space _ := table.space
  fallback _ := table.fallback
  newline _ := table.newline
  step _ state c := applyRules state (table.rules state) c

end RuleTable

end Octets
