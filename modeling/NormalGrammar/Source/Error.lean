import NormalGrammar.Diagnostic
import NormalGrammar.Grammar.Defect

/-!
# What can be wrong with a grammar file
-/

namespace NormalGrammar

/-- Why a file, or a line of it, cannot be read. -/
inductive ReadFailure where
  /-- There is no such file. -/
  | missing
  /-- The bytes are not valid UTF-8. -/
  | invalidText
  deriving DecidableEq

/-- The wording of a failure to read. -/
def ReadFailure.message : ReadFailure → String
  | .missing => "No such file or directory (os error 2)"
  | .invalidText => "stream did not contain valid UTF-8"

/-- What can be wrong with a grammar file. -/
inductive SourceError where
  /-- A line has no `=`. -/
  | noEquals
  /-- A line has another `=`. -/
  | strayEquals
  /-- There is nothing on the left of the `=`. -/
  | noLeftSide
  /-- The empty word stands on the left of the `=`. -/
  | emptyWordOnLeft
  /-- An alternative has no symbols. -/
  | blankAlternative
  /-- The empty word stands beside other symbols. -/
  | emptyWordAmongOthers
  /-- A quote is not closed. -/
  | openQuote
  /-- A name is written bare and quoted. -/
  | mixedName (name : String)
  /-- There are no rules. -/
  | noRules
  /-- The rules do not make up a grammar. -/
  | refused (error : Defect)
  /-- A `|` was left inside an alternative. -/
  | strayBar
  /-- A line without tokens was read as a rule. -/
  | noTokens
  /-- The file or a line of it cannot be read. -/
  | unreadable (failure : ReadFailure)
  deriving DecidableEq

/-- The wording of a problem. -/
def SourceError.message : SourceError → String
  | .noEquals => "Expected `=` after the left side of a rule"
  | .strayEquals => "Unexpected `=` encountered"
  | .noLeftSide => "Rule has nothing to rewrite on its left side"
  | .emptyWordOnLeft => "`" ++ Symbol.epsilon.name ++ "` cannot appear on the left side of a rule"
  | .blankAlternative => "Empty alternative (write `\"\"` for the empty string)"
  | .emptyWordAmongOthers => "The empty string must be an alternative on its own"
  | .openQuote => "Unmatched quotes"
  | .mixedName name => "`" ++ name ++ "` is used both as a terminal and as a nonterminal"
  | .noRules => "No rules found"
  | .refused error => "Invalid grammar: " ++ error.message
  | .strayBar =>
    "Rewrite was not fully split (this is a problem with chomskify, not the grammar)"
  | .noTokens =>
    "Blank line encountered in rule parser (this is a problem with chomskify, not the grammar)"
  | .unreadable failure => "File error: " ++ failure.message

/-- A problem and where it was found. -/
abbrev Problem := Located SourceError

end NormalGrammar
