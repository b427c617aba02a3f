import NormalGrammar.Traced
import NormalGrammar.Grammar.Basic
import NormalGrammar.Source.Names

/-!
# Reading grammar files

A file is cut into lines at line feeds; a carriage return just before a line feed belongs to the
line end.  After the last line end no line starts unless something follows.  Each line is decoded
on its own, so that one line of invalid bytes does not make the others unreadable.

The file is then read line by line.  If a line cannot be read, or is meant as a rule and is none, all such
lines are reported and nothing else is looked at.  Otherwise the rules of all lines, over the
symbols in order of first use, make up the grammar; it starts with the first symbol of the file.
-/

namespace NormalGrammar

/-! ## Lines -/

namespace Text

variable {α : Type} [DecidableEq α]

/-- The lines of a text, without their ends, where `feed` and `carriage` are its line feed and
its carriage return. -/
def cutLines (feed carriage : α) : List α → List (List α)
  | [] => []
  | x :: rest =>
    let lines := cutLines feed carriage rest
    if x = feed then
      [] :: lines
    else if x = carriage ∧ rest.head? = some feed then
      lines
    else
      match lines with
      | [] => [[x]]
      | line :: others => (x :: line) :: others

/-- The lines of a file; `none` is a line that is not valid UTF-8. -/
def readLines (contents : ByteArray) : List (Option String) :=
  (cutLines 10 13 contents.toList).map fun line => String.fromUTF8? line.toByteArray

end Text

/-! ## Readings -/

namespace Source

/-- A reading of lines: a grammar or the problems, and the warnings. -/
abbrev Reading := Traced Warning (List Problem) Grammar

/-- What line `number` of a file holds: nothing, a rule line, or a problem. -/
def readLine? (path : String) (number : Nat) : Option String → Option (Except Problem Line)
  | none => some (.error (.inFile path (.unreadable .invalidText)))
  | some text => if Line.isRuleText text then some (Line.ofText ⟨path, number⟩ text) else none

/-- What the lines of a file hold, from line `number` on. -/
def readFrom (path : String) : (number : Nat) → List (Option String) → List (Except Problem Line)
  | _, [] => []
  | number, text :: rest =>
    (readLine? path number text).toList ++ readFrom path (number + 1) rest

/-- The problems among some results. -/
def problems {α : Type} (results : List (Except Problem α)) : List Problem :=
  results.filterMap fun
    | .error p => some p
    | .ok _ => none

/-- The values among some results. -/
def values {α : Type} (results : List (Except Problem α)) : List α :=
  results.filterMap fun
    | .error _ => none
    | .ok a => some a

/-- The grammar over the symbols of rule lines, in order of first use. -/
def grammarOf (path : String) (start : Word) (lines : List Line) :
    Except (List Problem) Grammar :=
  let words := lines.flatMap Line.words
  (Grammar.ofParts start.symbol
      ((words.filter Word.isBare).map Word.symbol)
      ((words.filter Word.isQuoted).map Word.symbol)
      (lines.flatMap Line.rules)).mapError
    fun e => [.inFile path (.refused e)]

/-- The grammar that rule lines make up. -/
def ofLines (path : String) (lines : List Line) : Reading :=
  match lines.head?.bind (·.left.head?) with
  | none => Traced.fail [.inFile path .noRules]
  | some start => do
    Traced.note (undefinedUses lines)
    if clashes lines ≠ [] then
      Traced.fail (clashes lines)
    else
      Traced.ofExcept (grammarOf path start lines)

/-- The grammar that the lines of a file make up; `none` is a line that cannot be decoded. -/
def ofTexts (path : String) (texts : List (Option String)) : Reading :=
  let results := readFrom path 1 texts
  if problems results ≠ [] then
    Traced.fail (problems results)
  else
    ofLines path (values results)

/-- The grammar in a file, if the file is there. -/
def ofFile (path : String) (contents? : Option ByteArray) : Reading :=
  match contents? with
  | none => Traced.fail [.inFile path (.unreadable .missing)]
  | some contents => ofTexts path (Text.readLines contents)

end Source
end NormalGrammar
