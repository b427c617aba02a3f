import NormalGrammar.Source.Token

/-!
# Rule lines

A rule line is `left = alternative | alternative …`.  Every side is a list of words: bare words are
nonterminals and quoted words are terminals.  The left side holds at least one word and no empty
word; each alternative holds at least one word, and the empty word only on its own.
-/

namespace NormalGrammar

/-- A symbol as it is written in a file. -/
inductive Word where
  | bare (name : String)
  | quoted (text : String)
  | epsilon
  deriving DecidableEq

namespace Word

/-- The symbol that a word stands for. -/
def symbol : Word → Symbol
  | .bare name => ⟨name⟩
  | .quoted text => ⟨text⟩
  | .epsilon => Symbol.epsilon

/-- Whether a word is written without quotes. -/
def isBare : Word → Bool
  | .bare _ => true
  | _ => false

/-- Whether a word is written in quotes. -/
def isQuoted : Word → Bool
  | .quoted _ => true
  | _ => false

/-- The word that a token is. -/
def ofToken : Token → Except SourceError Word
  | .equals => .error .strayEquals
  | .bar => .error .strayBar
  | .epsilon => .ok .epsilon
  | .bare name => .ok (.bare name)
  | .quoted text => .ok (.quoted text)

end Word

/-- A rule line: one rule for each of its alternatives. -/
structure Line where
  left : List Word
  alternatives : List (List Word)
  place : Location
  deriving DecidableEq

namespace Line

/-! ## Reading a line -/

/-- The words of an alternative. -/
def readAlternative (tokens : List Token) : Except SourceError (List Word) :=
  if tokens = [] then
    .error .blankAlternative
  else if 1 < tokens.length ∧ Token.epsilon ∈ tokens then
    .error .emptyWordAmongOthers
  else
    tokens.mapM Word.ofToken

/-- The tokens between the bars: there is one piece more than there are bars. -/
def cutAtBars : List Token → List (List Token)
  | [] => [[]]
  | token :: rest =>
    if token = .bar then
      [] :: cutAtBars rest
    else
      match cutAtBars rest with
      | [] => [[token]]
      | piece :: others => (token :: piece) :: others

/-- The alternatives on the right of a line. -/
def readAlternatives (tokens : List Token) : Except SourceError (List (List Word)) :=
  (cutAtBars tokens).mapM readAlternative

/-- A word on the left of a line. -/
def readLeftWord : Token → Except SourceError Word
  | .bar => .error .noLeftSide
  | .epsilon => .error .emptyWordOnLeft
  | token => Word.ofToken token

/-- The words on the left of a line. -/
def readLeft (tokens : List Token) : Except SourceError (List Word) :=
  if tokens = [] then .error .noLeftSide else tokens.mapM readLeftWord

/-- The rule line that tokens make up. -/
def ofTokens (place : Location) (tokens : List Token) : Except SourceError Line :=
  if tokens = [] then
    .error .noTokens
  else
    match tokens.dropWhile (· ≠ .equals) with
    | [] => .error .noEquals
    | _ :: right => do
      let left ← readLeft (tokens.takeWhile (· ≠ .equals))
      let alternatives ← readAlternatives right
      return ⟨left, alternatives, place⟩

/-- The rule line that a text is. -/
def ofText (place : Location) (text : String) : Except Problem Line :=
  (Token.scan text.toList >>= ofTokens place).mapError (⟨place, ·⟩)

/-- Whether a line of a file is meant as a rule: it is not blank, and its first character that is
not a blank does not start a comment. -/
def isRuleText (text : String) : Bool :=
  match text.toList.dropWhile Text.isBlank with
  | [] => false
  | c :: _ => c != ';'

/-! ## Views -/

/-- The words of a line, in order. -/
def words (line : Line) : List Word := line.left ++ line.alternatives.flatten

/-- The rules of a line, in order. -/
def rules (line : Line) : List Rule :=
  line.alternatives.map fun alternative =>
    ⟨line.left.map Word.symbol, alternative.map Word.symbol⟩

end Line

end NormalGrammar
