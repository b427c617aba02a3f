import NormalGrammar.Symbol

/-!
# Rewriting rules

A rule lets its left side be rewritten to its right side.  A rule whose left side is one symbol,
its head, is a rule for that symbol.  The empty word is written `ε` on a right side.
-/

namespace NormalGrammar

/-- A rewriting rule. -/
structure Rule where
  left : List Symbol
  right : List Symbol
  deriving DecidableEq

namespace Rule

/-- The rule that rewrites one symbol. -/
def ofHead (head : Symbol) (right : List Symbol) : Rule := ⟨[head], right⟩

/-- The left side, if it is one symbol. -/
def head? (rule : Rule) : Option Symbol :=
  match rule.left with
  | [x] => some x
  | _ => none

/-- Whether the right side is the empty word. -/
def isEpsilon (rule : Rule) : Bool := decide (rule.right = [Symbol.epsilon])

/-- A rule as it is printed. -/
def text (rule : Rule) : String :=
  Symbol.spaced rule.left ++ " -> " ++ Symbol.spaced rule.right

@[simp]
theorem head?_ofHead (x : Symbol) (right : List Symbol) :
    (ofHead x right).head? = some x := rfl

/-- A rule has a head just when its left side is that one symbol. -/
theorem head?_eq_some_iff {rule : Rule} {x : Symbol} :
    rule.head? = some x ↔ rule.left = [x] := by
  unfold head?
  split <;> simp_all

@[simp]
theorem isEpsilon_iff {rule : Rule} : rule.isEpsilon = true ↔ rule.right = [Symbol.epsilon] := by
  simp [isEpsilon]

end Rule

end NormalGrammar
