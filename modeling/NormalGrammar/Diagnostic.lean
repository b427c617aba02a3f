/-!
# Reports that point into a file

A cause found in a file is reported together with its place: a path, and a line number that is
zero when the whole file is meant.
-/

namespace NormalGrammar

/-- A place in a file; line zero is the whole file. -/
structure Location where
  path : String
  line : Nat
  deriving DecidableEq

namespace Location

/-- The place that is a whole file. -/
def wholeFile (path : String) : Location := ⟨path, 0⟩

/-- A place as it is printed. -/
def text (place : Location) : String :=
  if place.line = 0 then place.path else place.path ++ ":" ++ place.line.repr

/-- The steps of a path: whether it starts at the root, and the names on the way.  Doubled and
trailing separators do not count, nor does a `.` that is not the first name. -/
def pathSteps (path : String) : Bool × List String :=
  match path.splitOn "/" with
  | [] => (false, [])
  | first :: rest =>
    (first = "" && path ≠ "",
      (if first = "" then [] else [first]) ++ rest.filter fun name => name ≠ "" && name ≠ ".")

/-- Whether two places are the same: the same line, and paths with the same steps. -/
def agrees (p q : Location) : Bool :=
  p.line == q.line && pathSteps p.path == pathSteps q.path

end Location

/-- A cause and the place where it was found. -/
structure Located (ε : Type) where
  place : Location
  cause : ε
  deriving DecidableEq

namespace Located

variable {ε : Type}

/-- A cause that concerns a whole file. -/
def inFile (path : String) (cause : ε) : Located ε := ⟨.wholeFile path, cause⟩

/-- A report as a terminal shows it: the place in bold red, then what `message` says of the
cause. -/
def text (message : ε → String) (report : Located ε) : String :=
  "\x1b[31;49;1m[" ++ report.place.text ++ "]\x1b[39;49;1m  " ++ message report.cause ++ "\x1b[0m"

/-- Whether two reports name the same cause at the same place. -/
def agrees [DecidableEq ε] (p q : Located ε) : Bool :=
  p.place.agrees q.place && decide (p.cause = q.cause)

/-- Whether two lists of reports agree one by one. -/
def agreeInOrder [DecidableEq ε] : List (Located ε) → List (Located ε) → Bool
  | [], [] => true
  | p :: ps, q :: qs => p.agrees q && agreeInOrder ps qs
  | _, _ => false

end Located

end NormalGrammar
