import NormalGrammar.Normal.EpsilonFree
import NormalGrammar.Normal.RenamingFree
import NormalGrammar.Normal.Reachable
import NormalGrammar.Normal.Productive
import NormalGrammar.Normal.NormalForm

/-!
# Bringing a grammar into normal form

All stages run in order, each on what the stage before it made.  The grammars that the finished
stages made are kept, whether or not all stages finish.
-/

namespace NormalGrammar

/-- The number of passes that a stage may take if nothing else is said. -/
def defaultLimit : Nat := 100000

/-- Runs one stage, with a limit on the passes of its loops. -/
def Stage.run (limit : Nat) (g : Grammar) : Stage → Staged Grammar
  | .epsilonRules => g.epsilonFree limit
  | .renamings => g.renamingFree limit
  | .reachability => g.reachable limit
  | .productivity => g.productive limit
  | .normalForm => g.normalForm

/-- How far a grammar came on the way to normal form. -/
structure Normalization where
  /-- The stages that finished, in order, and what they made. -/
  finished : List (Stage × Grammar)
  /-- What was noted. -/
  notes : List Event
  /-- The last grammar, or the failure. -/
  result : Except NormalizationError Grammar

namespace Normalization

/-- Runs a stage between two notes about it. -/
def announced (limit : Nat) (g : Grammar) (stage : Stage) : Staged Grammar := do
  Traced.note [.started stage g.rules.length]
  let h ← stage.run limit g
  Traced.note
    [.finished stage h.nonterminals.length h.terminals.length h.rules.length]
  return h

/-- Runs stages in order. -/
def ofStages (limit : Nat) : Grammar → List Stage → Normalization
  | g, [] => ⟨[], [], .ok g⟩
  | g, stage :: rest =>
    let step := announced limit g stage
    match step.result with
    | .error e => ⟨[], step.notes, .error e⟩
    | .ok h =>
      let later := ofStages limit h rest
      ⟨(stage, h) :: later.finished, step.notes ++ later.notes, later.result⟩

end Normalization

namespace Grammar

/-- Runs all stages, if every rule rewrites exactly one nonterminal. -/
def normalization (limit : Nat) (g : Grammar) : Normalization :=
  match g.rules.find? (!g.rewritesNonterminal ·) with
  | some rule => ⟨[], [], .error (.notContextFree rule)⟩
  | none => .ofStages limit g Stage.all

/-- The grammar in normal form, or why there is none. -/
def normalize (limit : Nat) (g : Grammar) : Except NormalizationError Grammar :=
  (g.normalization limit).result

end Grammar

end NormalGrammar
