import NormalGrammar.Normal.Stage

/-!
# Doing without renamings

A renaming is a rule `A → B` for a nonterminal `B`.  The first renaming is removed and `A` is given
the right sides of the rules for `B`, those aside that it has and the right side `A`; this is
repeated until no renaming is left.
-/

namespace NormalGrammar
namespace RenamingFree

open Sequence

/-- The right sides that `head` takes over from `target`, given its other right sides. -/
def inherited (rules : List Rule) (left : List Symbol) (head : Symbol) (target : List Symbol) :
    List (List Symbol) :=
  let own := (rules.filter fun rule => decide (rule.left = left)).map Rule.right
  let theirs := (rules.filter fun rule => decide (rule.left = target)).map Rule.right
  distinct (theirs.filter fun right => decide (right ≠ [head]) && !hasSequence own right)

/-- The other rules, after the renaming `unit` of `head` has been replaced by what `head` takes
over. -/
def inline (rules : List Rule) (unit : Rule) (head : Symbol) : List Rule :=
  let others := rules.erase unit
  others ++ (inherited others unit.left head unit.right).map (Rule.ofHead head)

/-- Replaces renamings, with a number of passes that are left of `limit`. -/
def run (g : Grammar) (limit : Nat) : Nat → List Rule → Staged (List Rule)
  | passes, rules =>
    match rules.find? g.isRenaming with
    | none => return rules
    | some unit =>
      match passes with
      | 0 => Traced.fail (.unsettled .renamings limit)
      | passes + 1 => do
        let head ← Stage.headOf .renamings unit
        Traced.note [.inlining unit]
        run g limit passes (inline rules unit head)

end RenamingFree

/-- The grammar without renamings, and without repeated rules. -/
def Grammar.renamingFree (limit : Nat) (g : Grammar) : Staged Grammar := do
  let rules ← RenamingFree.run g limit limit (Sequence.distinct g.rules)
  Stage.build .renamings g.start g.nonterminals g.terminals rules

end NormalGrammar
