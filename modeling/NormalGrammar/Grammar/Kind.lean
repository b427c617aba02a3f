import NormalGrammar.Grammar.Basic

/-!
# The class of a grammar

Grammars are classed by the shape of their rules, the narrowest class first: regular with the
nonterminal at the right or at the left end, context free, context sensitive (no rule shrinks) and
unrestricted.
-/

namespace NormalGrammar

/-- A class of grammars, the narrowest first. -/
inductive GrammarKind where
  | rightRegular
  | leftRegular
  | contextFree
  | contextSensitive
  | recursivelyEnumerable
  deriving DecidableEq

/-- The name of a class. -/
def GrammarKind.label : GrammarKind → String
  | .rightRegular => "Right Regular"
  | .leftRegular => "Left Regular"
  | .contextFree => "Context Free"
  | .contextSensitive => "Context Sensitive"
  | .recursivelyEnumerable => "Recursively Enumerable"

namespace Grammar

/-- Whether a right side is a terminal, or two symbols of which the first passes `first` and the
second passes `second`. -/
def regularRight (g : Grammar) (first second : Symbol → Bool) (right : List Symbol) : Bool :=
  match right with
  | [x] => g.isTerminal x
  | [x, y] => first x && second y
  | _ => false

/-- Whether every rule rewrites exactly one nonterminal. -/
def isContextFree (g : Grammar) : Bool := g.rules.all g.rewritesNonterminal

/-- The class of a grammar. -/
def kind (g : Grammar) : GrammarKind :=
  if g.isContextFree then
    if g.rules.all fun rule => g.regularRight g.isTerminal g.isNonterminal rule.right then
      .rightRegular
    else if g.rules.all fun rule => g.regularRight g.isNonterminal g.isTerminal rule.right then
      .leftRegular
    else
      .contextFree
  else if g.rules.all fun rule => decide (rule.left.length ≤ rule.right.length) then
    .contextSensitive
  else
    .recursivelyEnumerable

end Grammar

end NormalGrammar
