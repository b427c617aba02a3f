import NormalGrammar.Grammar.Basic

/-!
# How soon a symbol finishes

The height of a rule is one more than the largest height of the nonterminals on its right side, and
the height of a nonterminal is the smallest height of its rules: the number of nested expansions
that it needs.  A nonterminal that never finishes has no height.  Heights are found in passes over
the rules, each of which lowers the height of its head on the spot: rules that come later in a pass
see it, and what was found before may be lowered again.
-/

namespace NormalGrammar

/-- The heights of the symbols that are known to finish. -/
abbrev Heights := List (Symbol × Nat)

/-- Gives a symbol a height, in the place of the one that it may have. -/
def Heights.assign (known : Heights) (x : Symbol) (h : Nat) : Heights :=
  (x, h) :: known.filter fun entry => entry.1 ≠ x

namespace Grammar

/-- The height of a symbol on a right side; only nonterminals take expansions. -/
def heightOfSymbol? (g : Grammar) (known : Heights) (x : Symbol) : Option Nat :=
  if g.isNonterminal x then known.lookup x else some 0

/-- The largest height of some symbols. -/
def largestHeight? (g : Grammar) (known : Heights) : List Symbol → Option Nat
  | [] => some 0
  | x :: xs => do
    let h ← g.heightOfSymbol? known x
    let k ← g.largestHeight? known xs
    return max h k

/-- The height of a rule. -/
def heightOfRule? (g : Grammar) (known : Heights) (rule : Rule) : Option Nat :=
  (g.largestHeight? known rule.right).map (· + 1)

/-- Lowers the height of a rule's head to the height of the rule, if it is larger or not known. -/
def lower (g : Grammar) (known : Heights) (rule : Rule) : Heights :=
  match rule.head?, g.heightOfRule? known rule with
  | some x, some h => if (known.lookup x).all (h < ·) then known.assign x h else known
  | _, _ => known

/-- Goes through the rules once. -/
def heightPass (g : Grammar) (known : Heights) : Heights := g.rules.foldl g.lower known

/-- Makes passes until one changes nothing. -/
def heightPasses (g : Grammar) : (passes : Nat) → Heights → Heights
  | 0, known => known
  | passes + 1, known =>
    let later := g.heightPass known
    if later = known then known else g.heightPasses passes later

/-- The heights of all symbols that finish.  Each pass settles the symbols of one height more, so that
no more passes change anything than there are rules. -/
def heights (g : Grammar) : Heights := g.heightPasses g.rules.length []

end Grammar

end NormalGrammar
