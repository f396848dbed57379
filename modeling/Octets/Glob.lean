import Octets.Glob.Assembly

/-!
# Glob patterns

A glob pattern compiled to a matcher. A star is not greedy: it reaches to the
first occurrence of what follows it, and only a star at the end of the pattern
reaches to the end of the input. A match may end anywhere unless the pattern is
anchored; whether a pattern matches a whole input is asked of the anchored
matcher.

## Main definitions

* `Glob`, `Glob.parse` — a compiled pattern, `Glob.anchored`
* `Glob.matchAt`, `Glob.matchFront`, `Glob.matchesWhole`
-/

namespace Octets

/-- A compiled pattern: its text, the matcher that is run, and the matcher that
reaches to the end of the input. -/
structure Glob where
  pattern : Bytes
  matcher : Matcher
  whole : Matcher

namespace Glob

/-- Puts together the lexemes of a pattern. -/
def assemble (pattern : Bytes) : Assembly → List (LexItem State Token) →
    Except GlobError Assembly
  | a, [] => .ok a
  | _, .error e :: _ => .error (.lexical e)
  | a, .ok lexeme :: items =>
    match a.push lexeme.kind (lexeme.bytes pattern) lexeme.start with
    | .error e => .error e
    | .ok a => assemble pattern a items

/-- Compiles a pattern. -/
def parse (pattern : Bytes) : Except GlobError Glob :=
  if pattern.isEmpty then .error .empty
  else
    let items := ((lexer {} pattern).items (stepBound pattern)).1
    match assemble pattern .empty items with
    | .error e => .error e
    | .ok a =>
      match a.finish with
      | .error e => .error e
      | .ok matcher => .ok ⟨pattern, matcher, matcher.push .finish⟩

/-- The pattern, made to reach to the end of the input. -/
def anchored (g : Glob) : Glob := { g with matcher := g.whole }

/-- The length matched at a position of the input. -/
def matchAt (g : Glob) (input : Bytes) (start : Nat) : Option Nat := g.matcher.matchAt input start

/-- The length matched at the front of the input. -/
def matchFront (g : Glob) (input : Bytes) : Option Nat := g.matcher.matchFront input

/-- Whether the pattern matches the input from its front to its end. -/
def matchesWhole (g : Glob) (input : Bytes) : Bool := (g.whole.matchFront input).isSome

end Glob

end Octets
