import NormalGrammar.Normal.Stage

/-!
# Doing without empty right sides

Rules `A → ε` are removed one at a time.  When the rule of `A` goes, every rule that mentions `A`
gets, beside it, the variants in which one occurrence of `A` is dropped; passes are repeated until
none adds a rule, so that every selection of occurrences has been dropped.  A variant whose right
side became empty is a new rule `B → ε`, which is removed in its turn, but only if `B` has not had
its turn before.
-/

namespace NormalGrammar
namespace EpsilonFree

open Sequence

/-- Rules from which the empty right sides are being removed. -/
structure State where
  /-- The rules at hand. -/
  rules : List Rule
  /-- The symbols whose empty right sides have been removed. -/
  eliminated : List Symbol
  /-- The one of them whose occurrences are being dropped. -/
  current : Symbol

/-- The rule from `left` to what is left of a right side.  Nothing at all is spelled `ε`, unless
`left` has lost its empty right side already. -/
def variant? (eliminated left right : List Symbol) : Option Rule :=
  if right ≠ [] then
    some ⟨left, right⟩
  else if ∃ x ∈ left, x ∈ eliminated then
    none
  else
    some ⟨left, [Symbol.epsilon]⟩

/-- The rules that dropping one occurrence of `x` makes of a rule. -/
def variants (eliminated : List Symbol) (x : Symbol) (rule : Rule) : List Rule :=
  (droppingOne x rule.right).filterMap (variant? eliminated rule.left)

namespace State

/-- The rules that a pass adds. -/
def additions (s : State) : List Rule :=
  missing s.rules (s.rules.flatMap (variants s.eliminated s.current))

/-- Removes the first empty right side; nothing if there is none. -/
def next (rules : List Rule) (eliminated : List Symbol) : Staged (Option State) :=
  match rules.find? Rule.isEpsilon with
  | none => pure none
  | some rule => do
    let head ← Stage.headOf .epsilonRules rule
    Traced.note [.eliminating rule]
    return some ⟨rules.erase rule, head :: eliminated, head⟩

/-- Goes on from a state, with a number of passes that are left of `limit`. -/
def run (limit : Nat) : Nat → State → Staged (List Rule)
  | 0, _ => Traced.fail (.unsettled .epsilonRules limit)
  | passes + 1, s => do
    Traced.note (s.additions.map .adding)
    if s.additions = [] then
      match ← next s.rules s.eliminated with
      | none => return s.rules
      | some t => run limit passes t
    else
      run limit passes { s with rules := s.rules ++ s.additions }

end State

/-- The given rules without empty right sides. -/
def rules (limit : Nat) (given : List Rule) : Staged (List Rule) := do
  match ← State.next given [] with
  | none => return given
  | some s => s.run limit limit

end EpsilonFree

/-- The grammar without empty right sides. -/
def Grammar.epsilonFree (limit : Nat) (g : Grammar) : Staged Grammar := do
  let rules ← EpsilonFree.rules limit g.rules
  Stage.build .epsilonRules g.start g.nonterminals g.terminals rules

end NormalGrammar
