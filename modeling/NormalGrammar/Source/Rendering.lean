import NormalGrammar.Source.Line

/-!
# Writing tokens and lines

The ways of writing a list of tokens as a line, and the tokens of a rule line.  Two neighbours that
are both written bare need a blank between them; elsewhere blanks are free, and a comment may end
the line.
-/

namespace NormalGrammar
namespace Token

/-! ## Tokens that can be written -/

/-- Whether a token can be written so that it is read back: a bare name has characters, all of them
word characters, and is not `ε`; a quoted text has characters, none of them a quote. -/
def IsWritable : Token → Prop
  | .bare name => name ≠ "" ∧ name ≠ Symbol.epsilon.name ∧ ∀ c ∈ name.toList, isWordChar c = true
  | .quoted text => text ≠ "" ∧ '"' ∉ text.toList
  | _ => True

instance : DecidablePred IsWritable
  | .bare name => decidable_of_iff
      (name ≠ "" ∧ name ≠ Symbol.epsilon.name ∧ name.toList.all isWordChar = true)
      (by rw [IsWritable, List.all_eq_true])
  | .quoted text => inferInstanceAs (Decidable (text ≠ "" ∧ '"' ∉ text.toList))
  | .equals | .bar | .epsilon => .isTrue trivial

/-- The ways of writing one token; the last argument says whether it is written bare. -/
inductive Spells : Token → List Char → Bool → Prop
  | equals : Spells .equals ['='] false
  | bar : Spells .bar ['|'] false
  | bare (name : String) : Spells (.bare name) name.toList true
  | quoted (text : String) : Spells (.quoted text) ('"' :: text.toList ++ ['"']) false
  | twoQuotes : Spells .epsilon ['"', '"'] false
  | bareEpsilon : Spells .epsilon Symbol.epsilon.name.toList true

/-- The ways of writing tokens; the first argument says whether a bare word stands just before. -/
inductive Renders : Bool → List Token → List Char → Prop
  | done (afterBare : Bool) : Renders afterBare [] []
  | comment (afterBare : Bool) (cs : List Char) : Renders afterBare [] (';' :: cs)
  | blank {afterBare : Bool} {tokens : List Token} {c : Char} {cs : List Char} :
      Text.isBlank c = true → Renders false tokens cs → Renders afterBare tokens (c :: cs)
  | token {afterBare isBare : Bool} {token : Token} {tokens : List Token} {word cs : List Char} :
      Spells token word isBare → (afterBare && isBare) = false → Renders isBare tokens cs →
      Renders afterBare (token :: tokens) (word ++ cs)

/-- Whether a scan from left to right ends inside quotes.  It enters and leaves quotes at each
quote, and stops at a `;` outside quotes. -/
def endsInQuotes : (inside : Bool) → List Char → Bool
  | inside, [] => inside
  | true, c :: cs => endsInQuotes (c != '"') cs
  | false, c :: cs => if c == ';' then false else endsInQuotes (c == '"') cs

end Token

namespace Word

/-- The token that a word is written as. -/
def token : Word → Token
  | .bare name => .bare name
  | .quoted text => .quoted text
  | .epsilon => .epsilon

/-- A word's token is read as the word. -/
@[simp]
theorem ofToken_token (word : Word) : ofToken word.token = .ok word := by
  cases word <;> rfl

end Word

namespace Line

/-- The tokens of alternatives, with bars between them. -/
def alternativeTokens : List (List Word) → List Token
  | [] => []
  | [alternative] => alternative.map Word.token
  | alternative :: others =>
    alternative.map Word.token ++ .bar :: alternativeTokens others

/-- The tokens of a line. -/
def tokens (line : Line) : List Token :=
  line.left.map Word.token ++ .equals :: alternativeTokens line.alternatives

/-- Whether a line has the parts that a rule line needs. -/
structure IsProper (line : Line) : Prop where
  left_ne_nil : line.left ≠ []
  epsilon_not_mem_left : Word.epsilon ∉ line.left
  alternatives_ne_nil : line.alternatives ≠ []
  alternative_ne_nil : ∀ alternative ∈ line.alternatives, alternative ≠ []
  epsilon_alone : ∀ alternative ∈ line.alternatives, Word.epsilon ∈ alternative →
    alternative = [Word.epsilon]

end Line
end NormalGrammar
