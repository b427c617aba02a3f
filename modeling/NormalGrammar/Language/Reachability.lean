import NormalGrammar.Grammar.Basic

/-!
# Relations between symbols

What can be reached from the start symbol through rules, and which nonterminals are renamings of
which.
-/

namespace NormalGrammar
namespace Grammar

/-- A symbol is reachable if it is the start symbol, or stands on the right side of a rule for a
reachable symbol. -/
inductive IsReachable (g : Grammar) : Symbol → Prop
  | start : IsReachable g g.start
  | step {x y : Symbol} {rule : Rule} : IsReachable g x → rule ∈ g.rulesOf x → y ∈ rule.right →
      y ≠ Symbol.epsilon → IsReachable g y

/-- `g.Renames x y` says that `x` becomes `y` by any number of renaming rules. -/
inductive Renames (g : Grammar) : Symbol → Symbol → Prop
  | refl (x : Symbol) : Renames g x x
  | step {x y z : Symbol} : Rule.ofHead x [y] ∈ g.rules → y ∈ g.nonterminals → Renames g y z →
      Renames g x z

variable {g : Grammar}

theorem Renames.trans {x y z : Symbol} (h : g.Renames x y) (k : g.Renames y z) :
    g.Renames x z := by
  induction h with
  | refl => exact k
  | step hrule hy _ ih => exact .step hrule hy (ih k)

theorem IsReachable.declared {x : Symbol} (h : g.IsReachable x) :
    x ∈ g.nonterminals ++ g.terminals := by
  induction h with
  | start => exact List.mem_append_left _ g.wellFormed.start_mem
  | step _ hrule hy hε _ => exact declared_of_mem_right (mem_rulesOf.1 hrule).1 hy hε

end Grammar
end NormalGrammar
