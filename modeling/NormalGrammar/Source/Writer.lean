import NormalGrammar.Grammar.Basic
import NormalGrammar.Source.Reader

/-!
# Writing grammar files

A grammar is written with one line for each rule: nonterminals bare, terminals in quotes, the empty
word as two quotes, and spaces between symbols.  Reading what was written gives the grammar back if
it is `Printable`.
-/

namespace NormalGrammar

namespace Grammar

/-- A symbol as it is written in a file. -/
def symbolText (g : Grammar) (x : Symbol) : String :=
  if x.isEpsilon then "\"\"" else if g.isTerminal x then "\"" ++ x.name ++ "\"" else x.name

/-- One side of a rule as it is written in a file. -/
def sideText (g : Grammar) (side : List Symbol) : String :=
  " ".intercalate (side.map g.symbolText)

/-- A rule as it is written in a file. -/
def ruleText (g : Grammar) (rule : Rule) : String :=
  g.sideText rule.left ++ " = " ++ g.sideText rule.right

/-- A grammar as a file. -/
def fileText (g : Grammar) : String :=
  String.join (g.rules.map fun rule => g.ruleText rule ++ "\n")

/-- The symbols of the rules, in order. -/
def usedSymbols (g : Grammar) : List Symbol :=
  g.rules.flatMap fun rule => rule.left ++ rule.right

/-- Whether a grammar can be written as a file and read back: it declares what its rules use, in
that order, starts with the first symbol of its rules, and its symbols can be written. -/
structure Printable (g : Grammar) : Prop where
  start_eq : g.rules.head?.bind (·.left.head?) = some g.start
  nonterminals_eq :
    g.nonterminals = Sequence.distinct (g.usedSymbols.filter g.isNonterminal)
  terminals_eq : g.terminals = Sequence.distinct (g.usedSymbols.filter g.isTerminal)
  nonterminals_writable : ∀ x ∈ g.nonterminals,
    x.name ≠ "" ∧ ∀ c ∈ x.name.toList, Token.isWordChar c = true
  terminals_writable : ∀ x ∈ g.terminals,
    x.name ≠ "" ∧ '"' ∉ x.name.toList ∧ '\n' ∉ x.name.toList

end Grammar

end NormalGrammar
