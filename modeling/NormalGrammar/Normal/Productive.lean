import NormalGrammar.Normal.Stage

/-!
# Keeping what derives a word

A nonterminal is productive if one of its rules has a right side of terminals and productive
nonterminals.  Productive nonterminals are found in passes over the rules, until a pass finds none.
The empty word counts for nothing here, since empty right sides have gone before.
-/

namespace NormalGrammar
namespace Productive

open Sequence

/-- Whether a right side holds only terminals and symbols known to be productive. -/
def derives (g : Grammar) (known : List Symbol) (rule : Rule) : Bool :=
  rule.right.all fun x => g.isTerminal x || decide (x ∈ known)

/-- The heads of the rules whose right sides are known to be productive. -/
def heads (g : Grammar) (known : List Symbol) : List Symbol :=
  (g.rules.filter (derives g known)).filterMap Rule.head?

/-- Looks for productive symbols, with a number of passes that are left of `limit`. -/
def explore (g : Grammar) (limit : Nat) :
    Nat → (known : List Symbol) → Except NormalizationError (List Symbol)
  | 0, _ => .error (.unsettled .productivity limit)
  | passes + 1, known =>
    let found := missing known (heads g known)
    if found = [] then .ok known else explore g limit passes (known ++ found)

/-- The productive symbols, in the order in which they are found. -/
def symbols (limit : Nat) (g : Grammar) : Except NormalizationError (List Symbol) :=
  explore g limit limit (distinct (heads g []))

end Productive

/-- The part of the grammar that derives words. -/
def Grammar.productive (limit : Nat) (g : Grammar) : Staged Grammar := do
  let known ← (Productive.symbols limit g : Except NormalizationError (List Symbol))
  let dropped := g.nonterminals.filter (· ∉ known)
  Traced.note (if dropped = [] then [] else [.droppingUnproductive dropped])
  Stage.build .productivity g.start
    (g.nonterminals.filter (· ∈ known))
    g.terminals
    (g.rules.filter (Productive.derives g known))

end NormalGrammar
