import NormalGrammar.Sequence
import NormalGrammar.Source.Line

/-!
# How names are used in a file

A name is written bare everywhere or quoted everywhere.  A name that is written both ways is
reported once, where it is first written in its second way.  A bare name that is used on a right
side should have a rule of its own; if it has none, that is worth a warning.
-/

namespace NormalGrammar

/-- A use of a name: how it is written, and where. -/
structure Occurrence where
  name : String
  quoted : Bool
  place : Location
  deriving DecidableEq

namespace Line

/-- The name of a word and whether it is quoted; the empty word has no name. -/
def nameOf? : Word → Option (String × Bool)
  | .bare name => some (name, false)
  | .quoted text => some (text, true)
  | .epsilon => none

/-- The uses of names in a line, in order. -/
def occurrences (line : Line) : List Occurrence :=
  line.words.filterMap fun word =>
    (nameOf? word).map fun (name, quoted) => ⟨name, quoted, line.place⟩

end Line

/-- The uses that are the first of their name in this way, after a use in the other way.  The names
in `before` have been used in the given ways. -/
def clashesAfter (before : List (String × Bool)) : List Occurrence → List Occurrence
  | [] => []
  | o :: rest =>
    if (o.name, o.quoted) ∈ before then
      clashesAfter before rest
    else
      let later := clashesAfter ((o.name, o.quoted) :: before) rest
      if (o.name, !o.quoted) ∈ before then o :: later else later

/-- The names that are written in two ways, each where it is first written in the second way. -/
def clashes (lines : List Line) : List Problem :=
  (clashesAfter [] (lines.flatMap Line.occurrences)).map fun o => ⟨o.place, .mixedName o.name⟩

/-- A use of a nonterminal for which the file has no rule. -/
structure Warning where
  place : Location
  name : String
  deriving DecidableEq

/-- A warning as it is logged. -/
def Warning.text (w : Warning) : String :=
  "WARN " ++ w.place.text ++ ": `" ++ w.name ++ "` has no rules"

/-- The nonterminals that are the whole left side of a line. -/
def definedNames (lines : List Line) : List String :=
  Sequence.distinct <| lines.filterMap fun line =>
    match line.left with
    | [.bare name] => some name
    | _ => none

/-- The uses of nonterminals that are not among the defined ones, on the right side of a line. -/
def Line.undefinedUses (defined : List String) (line : Line) : List Warning :=
  line.alternatives.flatten.filterMap fun
    | .bare name => if name ∈ defined then none else some ⟨line.place, name⟩
    | _ => none

/-- The uses of nonterminals without rules, on the right sides of the lines, in order. -/
def undefinedUses (lines : List Line) : List Warning :=
  lines.flatMap (Line.undefinedUses (definedNames lines))

end NormalGrammar
