import NormalGrammar.Traced
import NormalGrammar.Grammar.Basic

/-!
# Stages on the way to normal form

A grammar is brought into normal form in five stages.  Each stage is a traced computation: it
returns a grammar or says why it could not, and notes the steps that it took.  This file names the
stages, their failures and their notes.
-/

namespace NormalGrammar

/-- A stage on the way to normal form. -/
inductive Stage where
  | epsilonRules
  | renamings
  | reachability
  | productivity
  | normalForm
  deriving DecidableEq

namespace Stage

/-- The stages in the order in which they run. -/
def all : List Stage := [.epsilonRules, .renamings, .reachability, .productivity, .normalForm]

/-- What a stage is called in messages. -/
def label : Stage → String
  | .epsilonRules => "epsilon rule elimination"
  | .renamings => "unit rule elimination"
  | .reachability => "inaccessible symbol removal"
  | .productivity => "non-productive symbol removal"
  | .normalForm => "conversion to normal form"

end Stage

/-! ## Failures -/

/-- Why a grammar has not been brought into normal form. -/
inductive NormalizationError where
  /-- A rule does not rewrite exactly one nonterminal. -/
  | notContextFree (rule : Rule)
  /-- What a stage made is not a grammar. -/
  | refused (stage : Stage) (error : Defect)
  /-- A stage met a rule that it cannot handle. -/
  | unsuited (stage : Stage) (rule : Rule)
  /-- A stage was not done after the allowed number of passes. -/
  | unsettled (stage : Stage) (limit : Nat)
  deriving DecidableEq

/-- The wording of a failure. -/
def NormalizationError.message : NormalizationError → String
  | .notContextFree rule =>
    "Not a context-free grammar: the left side of `" ++ rule.text ++ "` is not a single nonterminal"
  | .refused stage error => "Invalid grammar after " ++ stage.label ++ ": " ++ error.message
  | .unsuited stage rule => "Rule `" ++ rule.text ++ "` cannot be handled by " ++ stage.label
  | .unsettled stage limit =>
    stage.label ++ " did not settle within " ++ limit.repr ++ " iterations"

/-! ## Notes -/

/-- A step that a stage took. -/
inductive Event where
  | started (stage : Stage) (rules : Nat)
  | finished (stage : Stage) (nonterminals terminals rules : Nat)
  | eliminating (rule : Rule)
  | adding (rule : Rule)
  | inlining (rule : Rule)
  | droppingUnreachable (symbols : List Symbol)
  | droppingUnproductive (symbols : List Symbol)
  | minted (symbol : Symbol) (pattern : List Symbol)
  deriving DecidableEq

/-- A step as it is logged: how much it matters, then what was done. -/
def Event.text : Event → String
  | .started stage rules =>
    "DEBUG Starting " ++ stage.label ++ " with " ++ rules.repr ++ " rules"
  | .finished stage nonterminals terminals rules =>
    "INFO Finished " ++ stage.label ++ ": " ++ nonterminals.repr ++ " nonterminals, " ++
      terminals.repr ++ " terminals, " ++ rules.repr ++ " rules"
  | .eliminating rule => "DEBUG Eliminating `" ++ rule.text ++ "`"
  | .adding rule => "DEBUG Adding `" ++ rule.text ++ "`"
  | .inlining rule => "DEBUG Inlining `" ++ rule.text ++ "`"
  | .droppingUnreachable symbols => "DEBUG Dropping inaccessible " ++ Symbol.listed symbols
  | .droppingUnproductive symbols => "DEBUG Dropping non-productive " ++ Symbol.listed symbols
  | .minted symbol pattern => "DEBUG Minted `" ++ symbol.name ++ "` for " ++ Symbol.spaced pattern

/-- A computation of a stage. -/
abbrev Staged (α : Type) := Traced Event NormalizationError α

namespace Stage

/-- The symbol that a rule rewrites, which a stage relies on. -/
def headOf (stage : Stage) (rule : Rule) : Except NormalizationError Symbol :=
  match rule.head? with
  | some x => .ok x
  | none => .error (.unsuited stage rule)

/-- Checks what a stage made. -/
def build (stage : Stage) (start : Symbol) (nonterminals terminals : List Symbol)
    (rules : List Rule) : Except NormalizationError Grammar :=
  (Grammar.ofParts start nonterminals terminals rules).mapError (.refused stage)

theorem headOf_eq_ok_iff {stage : Stage} {rule : Rule} {x : Symbol} :
    stage.headOf rule = .ok x ↔ rule.head? = some x := by
  unfold headOf
  split <;> simp_all

theorem build_eq_ok_iff {stage : Stage} {start : Symbol} {nonterminals terminals : List Symbol}
    {rules : List Rule} {g : Grammar} :
    stage.build start nonterminals terminals rules = .ok g ↔
      Grammar.ofParts start nonterminals terminals rules = .ok g := by
  unfold build
  cases Grammar.ofParts start nonterminals terminals rules with
  | ok h => exact ⟨fun e => by cases e; rfl, fun e => by cases e; rfl⟩
  | error d => exact ⟨nofun, nofun⟩

/-- **What a stage makes** of alphabets that repeat nothing has just the parts that it was made of. -/
theorem parts_of_build {stage : Stage} {start : Symbol} {nonterminals terminals : List Symbol}
    {rules : List Rule} {g : Grammar} (hn : nonterminals.Nodup) (ht : terminals.Nodup)
    (hb : stage.build start nonterminals terminals rules = .ok g) :
    g.start = start ∧ g.nonterminals = nonterminals ∧ g.terminals = terminals ∧ g.rules = rules :=
  Grammar.parts_of_ofParts hn ht (build_eq_ok_iff.1 hb)

/-- A stage that gives a grammar new rules keeps all else. -/
theorem parts_of_new_rules {stage : Stage} {made : Staged (List Rule)} {g h : Grammar}
    (hh : (do
      let rules ← made
      stage.build g.start g.nonterminals g.terminals rules : Staged Grammar).result = .ok h) :
    h.start = g.start ∧ h.nonterminals = g.nonterminals ∧ h.terminals = g.terminals ∧
      made.result = .ok h.rules := by
  obtain ⟨rules, hmade, hb⟩ := Traced.result_bind_eq_ok_iff.1 hh
  obtain ⟨hs, hn, ht, rfl⟩ := parts_of_build g.nodup_nonterminals g.nodup_terminals hb
  exact ⟨hs, hn, ht, hmade⟩

end Stage

end NormalGrammar
