import NormalGrammar.Normal.Stage

/-!
# Keeping what the start symbol reaches

A symbol is reachable if it is the start symbol, or stands on the right side of a rule for a
reachable symbol.  Reachable symbols are found in passes: each pass visits the symbols that were
found and not yet visited, and the search is over when all that was found has been visited.
-/

namespace NormalGrammar
namespace Reachable

open Sequence

/-- The symbols that the rules for some symbols mention, in order. -/
def mentioned (g : Grammar) (symbols : List Symbol) : List Symbol :=
  (symbols.flatMap fun x => (g.rulesOf x).flatMap Rule.right).filter (!·.isEpsilon)

/-- Visits what has been found, with a number of passes that are left of `limit`, and returns all
that is found in the end. -/
def explore (g : Grammar) (limit : Nat) :
    Nat → (found visited : List Symbol) → Except NormalizationError (List Symbol)
  | passes, found, visited =>
    if isRearrangement found visited then
      .ok found
    else
      match passes with
      | 0 => .error (.unsettled .reachability limit)
      | passes + 1 =>
        let unvisited := found.filter (· ∉ visited)
        explore g limit passes (found ++ missing found (mentioned g unvisited))
          (visited ++ unvisited)

/-- The reachable symbols, in the order in which they are found. -/
def symbols (limit : Nat) (g : Grammar) : Except NormalizationError (List Symbol) :=
  explore g limit limit [g.start] []

end Reachable

/-- The part of the grammar that the start symbol reaches. -/
def Grammar.reachable (limit : Nat) (g : Grammar) : Staged Grammar := do
  let found ← (Reachable.symbols limit g : Except NormalizationError (List Symbol))
  let dropped := g.nonterminals.filter (· ∉ found)
  Traced.note (if dropped = [] then [] else [.droppingUnreachable dropped])
  Stage.build .reachability g.start
    (g.nonterminals.filter (· ∈ found))
    (g.terminals.filter (· ∈ found))
    (g.rules.filter fun rule => rule.left.all (· ∈ found))

end NormalGrammar
