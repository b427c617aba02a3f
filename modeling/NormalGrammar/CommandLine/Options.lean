import NormalGrammar.Normal.Pipeline

/-!
# Arguments

Arguments are read from left to right.  A setting takes a value, which is attached to it
(`--depth=3`, `-n3`, `-n=3`) or is the argument after it; a flag takes none.  What is neither is the
file.  After `--` every argument is a file.

The value of a setting is examined only when the next option is read, or the arguments are over:
until then the setting is pending.  So the first problem is not always the leftmost one.
-/

namespace NormalGrammar

/-- What a run is asked to do. -/
structure Options where
  file : String
  start? : Option String
  stages : Bool
  maxIterations : Nat
  amount? : Option Nat
  depth : Nat
  deriving DecidableEq

/-- What is wrong with the arguments. -/
inductive Misuse where
  /-- No file is named. -/
  | fileMissing
  /-- An option is unknown, or a second file is named. -/
  | unknownArgument
  /-- An option is given twice. -/
  | repeated
  /-- A value is not a number, or not one in range. -/
  | invalidNumber
  /-- A setting has no value, or the name of the file is empty. -/
  | valueMissing
  /-- A flag has a value. -/
  | unwantedValue
  deriving DecidableEq

/-- The wording of a misuse. -/
def Misuse.message : Misuse → String
  | .fileMissing => "error: the required argument <FILE> was not provided"
  | .unknownArgument => "error: unexpected argument found"
  | .repeated => "error: an argument cannot be used multiple times"
  | .invalidNumber => "error: invalid number for an argument"
  | .valueMissing => "error: a value is required for an argument but none was supplied"
  | .unwantedValue => "error: unexpected value for an argument found"

/-- Why arguments do not lead to a run. -/
inductive Stop where
  | help
  | version
  | misuse (what : Misuse)
  deriving DecidableEq

namespace CommandLine

/-! ## Numbers -/

/-- The number that decimal digits spell, if there are digits and nothing else. -/
def readDigits? (digits : List Char) : Option Nat :=
  if digits ≠ [] ∧ digits.all Char.isDigit then
    some (digits.foldl (fun n c => 10 * n + (c.toNat - '0'.toNat)) 0)
  else
    none

/-- The number that a text spells, with or without a plus sign, if it is less than `bound`. -/
def readCount? (bound : Nat) (text : String) : Option Nat :=
  let digits := match text.toList with
    | '+' :: rest => rest
    | cs => cs
  (readDigits? digits).filter (· < bound)

/-- As `readCount?`, but zero may have a minus sign. -/
def readSignedCount? (bound : Nat) (text : String) : Option Nat :=
  match text.toList with
  | '-' :: rest => (readDigits? rest).filter (· = 0)
  | _ => readCount? bound text

/-! ## Arguments one by one -/

/-- The shape of an argument. -/
inductive Argument where
  /-- Two dashes. -/
  | endOfOptions
  /-- A name after two dashes, and the value after a `=`. -/
  | long (name : String) (value? : Option String)
  /-- A letter after a dash, and what follows it. -/
  | short (letter : Char) (rest : List Char)
  /-- Anything else, a lone dash included. -/
  | plain (text : String)

/-- The shape of an argument. -/
def Argument.ofText (text : String) : Argument :=
  match text.toList with
  | ['-', '-'] => .endOfOptions
  | '-' :: '-' :: rest =>
    .long (String.ofList (rest.takeWhile (· ≠ '=')))
      (match rest.dropWhile (· ≠ '=') with
        | [] => none
        | _ :: value => some (String.ofList value))
  | '-' :: letter :: rest => .short letter rest
  | _ => .plain text

/-- The value that is attached to a short option, if anything follows its letter. -/
def attachedValue? : List Char → Option String
  | [] => none
  | '=' :: value => some (String.ofList value)
  | value => some (String.ofList value)

/-- A part of the options that takes a value. -/
inductive Setting where
  | file
  | start
  | maxIterations
  | amount
  | depth
  deriving DecidableEq

/-- What an option stands for. -/
inductive Switch where
  | help
  | version
  | stages
  | takes (setting : Setting)
  deriving DecidableEq

/-- The option with a name. -/
def longSwitch? : String → Option Switch
  | "help" => some .help
  | "version" => some .version
  | "stages" => some .stages
  | "start" => some (.takes .start)
  | "max-iterations" => some (.takes .maxIterations)
  | "amount" => some (.takes .amount)
  | "depth" => some (.takes .depth)
  | _ => none

/-- The option with a letter. -/
def shortSwitch? : Char → Option Switch
  | 'h' => some .help
  | 'V' => some .version
  | 's' => some (.takes .start)
  | 'n' => some (.takes .amount)
  | _ => none

/-! ## What has been said so far -/

/-- The options that have been given. -/
structure Choices where
  file? : Option String
  start? : Option String
  stages : Bool
  maxIterations? : Option Nat
  amount? : Option Nat
  depth? : Option Nat

/-- Nothing has been given. -/
def Choices.none : Choices := ⟨.none, .none, false, .none, .none, .none⟩

namespace Choices

/-- A number that is given for the first time. -/
def freshNumber (given? read? : Option Nat) : Except Stop Nat :=
  if given?.isSome then
    .error (.misuse .repeated)
  else match read? with
    | some n => .ok n
    | .none => .error (.misuse .invalidNumber)

/-- Gives a setting its value, once. -/
def assign (c : Choices) (value : String) : Setting → Except Stop Choices
  | .file => if value = "" then .error (.misuse .valueMissing) else .ok { c with file? := value }
  | .start =>
    if c.start?.isSome then .error (.misuse .repeated) else .ok { c with start? := value }
  | .maxIterations => do
    let n ← freshNumber c.maxIterations? (readCount? UInt64.size value)
    return { c with maxIterations? := n }
  | .amount => do
    let n ← freshNumber c.amount? (readSignedCount? UInt32.size value)
    return { c with amount? := n }
  | .depth => do
    let n ← freshNumber c.depth? (readCount? UInt64.size value)
    return { c with depth? := n }

/-- The options that were given, and the usual values of the others. -/
def complete (c : Choices) : Except Stop Options :=
  match c.file? with
  | .none => .error (.misuse .fileMissing)
  | some file => .ok
    { file, start? := c.start?, stages := c.stages
      maxIterations := c.maxIterations?.getD defaultLimit
      amount? := c.amount?
      depth := c.depth?.getD 12 }

end Choices

/-- How far the arguments have been read. -/
structure Progress where
  /-- What is settled. -/
  settled : Choices
  /-- The setting that was read last, and its value unless that is still awaited. -/
  pending? : Option (Setting × Option String)

namespace Progress

/-- Settles what is pending. -/
def settle (p : Progress) : Except Stop Choices :=
  match p.pending? with
  | none => .ok p.settled
  | some (_, none) => .error (.misuse .valueMissing)
  | some (setting, some value) => p.settled.assign value setting

/-- Reads an option, with the value that is attached to it. -/
def readSwitch (p : Progress) (value? : Option String) : Switch → Except Stop Progress
  | .takes setting => do
    let settled ← p.settle
    match value? with
    | none => return ⟨settled, some (setting, none)⟩
    | some value => return ⟨← settled.assign value setting, none⟩
  | .help =>
    if value?.isSome then .error (.misuse .unwantedValue) else p.settle >>= fun _ => .error .help
  | .version =>
    if value?.isSome then .error (.misuse .unwantedValue) else p.settle >>= fun _ => .error .version
  | .stages =>
    if value?.isSome then
      .error (.misuse .unwantedValue)
    else do
      let settled ← p.settle
      if settled.stages then
        .error (.misuse .repeated)
      else
        return ⟨{ settled with stages := true }, none⟩

/-- Whether a file has been named. -/
def hasFile (p : Progress) : Bool :=
  p.settled.file?.isSome || match p.pending? with
    | some (.file, _) => true
    | _ => false

/-- Reads the name of the file. -/
def readFile (p : Progress) (name : String) : Except Stop Progress :=
  if p.hasFile then
    .error (.misuse .unknownArgument)
  else do
    return ⟨← p.settle, some (.file, some name)⟩

/-- Reads an argument that is not an option: the value that is awaited, or the file. -/
def readPlain (p : Progress) (text : String) : Except Stop Progress :=
  match p.pending? with
  | some (setting, none) => .ok { p with pending? := some (setting, some text) }
  | _ => p.readFile text

/-- Reads an option that was looked up, if there is one. -/
def readSwitch? (p : Progress) (value? : Option String) (switch? : Option Switch) :
    Except Stop Progress :=
  match switch? with
  | none => .error (.misuse .unknownArgument)
  | some switch => p.readSwitch value? switch

/-- Reads arguments after `--`. -/
def readFiles : Progress → List String → Except Stop Progress
  | p, [] => .ok p
  | p, text :: rest => do (← p.readFile text).readFiles rest

/-- Reads arguments. -/
def read : Progress → List String → Except Stop Progress
  | p, [] => .ok p
  | p, text :: rest =>
    match Argument.ofText text with
    | .endOfOptions => p.readFiles rest
    | .long name value? => do (← p.readSwitch? value? (longSwitch? name)).read rest
    | .short letter attached => do
      let switch? := shortSwitch? letter
      let value? := match switch? with
        | some (.takes _) => attachedValue? attached
        | _ => none
      (← p.readSwitch? value? switch?).read rest
    | .plain text => do (← p.readPlain text).read rest

end Progress

/-- The options that arguments ask for; the name of the program is not among the arguments. -/
def readArguments (arguments : List String) : Except Stop Options := do
  let p ← Progress.read ⟨.none, none⟩ arguments
  (← p.settle).complete

end CommandLine

end NormalGrammar
