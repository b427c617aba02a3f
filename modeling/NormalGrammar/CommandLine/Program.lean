import NormalGrammar.CommandLine.Options
import NormalGrammar.Grammar.Kind
import NormalGrammar.Sampling.Sentence
import NormalGrammar.Source.Folder
import NormalGrammar.Source.Reader

/-!
# What the program prints

A run reads a grammar file, brings the grammar into normal form, prints it, and prints sentences
sampled from it.  Problems go to the error stream, each with its place.  A run is a function of the
arguments, the files below the current folder and a script of random words.

A grammar is printed as its class, its alphabets with their sizes, its start symbol and its rules
sorted by their left sides.  Rules with the same left side keep their order.
-/

namespace NormalGrammar

/-! ## The printed form of a grammar -/

namespace Grammar

/-- The rules in the order in which they are printed. -/
def rulesByLeft (g : Grammar) : List Rule :=
  g.rules.mergeSort fun r s => decide (Symbol.spaced r.left ≤ Symbol.spaced s.left)

/-- An alphabet as it is printed: its symbols, then their number. -/
def alphabetText (symbols : List Symbol) : String :=
  Symbol.listed symbols ++ " (" ++ symbols.length.repr ++ ")"

/-- A grammar as it is printed. -/
def text (g : Grammar) : String :=
  "Type: " ++ g.kind.label ++ "\n" ++
  "Nonterminals: " ++ alphabetText g.nonterminals ++ "\n" ++
  "Terminals: " ++ alphabetText g.terminals ++ "\n" ++
  "Start symbol: " ++ g.start.name ++ "\n" ++
  "Productions:\n" ++
  String.join (g.rulesByLeft.map fun rule => "    " ++ rule.text ++ "\n") ++
  g.rules.length.repr ++ " productions"

end Grammar

/-- What a run leaves behind. -/
structure Report where
  code : Nat
  output : String
  errors : String
  /-- How many random words were drawn. -/
  drawn : Nat

namespace CommandLine

/-! ## Texts -/

/-- What is printed for `--version`. -/
def versionText : String := "chomskify 0.1.0\n"

/-- How the program is used. -/
def usageText : String := "Usage: chomskify [OPTIONS] <FILE>\n"

/-- What is printed for `--help`. -/
def helpText : String :=
  "Converts context-free grammars to Chomsky normal form\n\n" ++ usageText ++ "\n" ++
  "Arguments:\n" ++
  "  <FILE>  File containing the grammar\n\n" ++
  "Options:\n" ++
  "  -s, --start <SYMBOL>      Start symbol (default: first in the file)\n" ++
  "      --stages              Print the grammar after every normalization stage\n" ++
  "      --max-iterations <N>  Give up on a stage after this many fixpoint iterations " ++
    "[default: 100000]\n" ++
  "  -n, --amount <AMOUNT>     Number of sentences to sample from the normalized grammar " ++
    "(default: 0)\n" ++
  "      --depth <DEPTH>       Nesting depth after which sampling only picks rules that finish " ++
    "[default: 12]\n" ++
  "  -h, --help                Print help\n" ++
  "  -V, --version             Print version\n"

/-! ## Runs -/

/-- Sentences, up to the first failure. -/
structure Samples where
  sentences : List String
  failure? : Option SampleError
  source : WordSource

/-- Samples a number of sentences one after the other. -/
def sampleMany (g : Grammar) (depth : Nat) : (amount : Nat) → WordSource → Samples
  | 0, source => ⟨[], none, source⟩
  | amount + 1, source =>
    match g.sampleFrom depth source with
    | (.error e, source) => ⟨[], some e, source⟩
    | (.ok sentence, source) =>
      let later := sampleMany g depth amount source
      { later with sentences := sentence :: later.sentences }

/-- The grammar that the options name, or the problems with it, as they are printed. -/
def readGrammar (options : Options) (contents? : Option ByteArray) :
    Except (List String) Grammar := do
  let g ← (Source.ofFile options.file contents?).result.mapError
    (·.map (Located.text SourceError.message))
  match options.start? with
  | none => return g
  | some start =>
    (g.startingAt ⟨start⟩).mapError fun e =>
      [(Located.inFile options.file (.refused e)).text SourceError.message]

/-- The output for the grammar in normal form: all grammars on the way to it, or itself. -/
def grammarsText (options : Options) (g : Grammar) (n : Normalization) : String :=
  if options.stages then
    "Input\n" ++ g.text ++ "\n\n" ++
      String.join (n.finished.map fun (stage, h) =>
        "After " ++ stage.label ++ "\n" ++ h.text ++ "\n\n")
  else
    match n.result with
    | .ok h => h.text ++ "\n"
    | .error _ => ""

/-- Problems as they are printed: one to a line. -/
def linesOf (messages : List String) : String := String.join (messages.map (· ++ "\n"))

/-- A run with the given options. -/
def perform (options : Options) (contents? : Option ByteArray) (script : List UInt32) : Report :=
  match readGrammar options contents? with
  | .error messages => ⟨1, "", linesOf messages, 0⟩
  | .ok g =>
    let n := g.normalization options.maxIterations
    let grammars := grammarsText options g n
    match n.result with
    | .error e =>
      ⟨1, grammars, linesOf [(Located.inFile options.file e).text NormalizationError.message], 0⟩
    | .ok h =>
      let samples := sampleMany h options.depth (options.amount?.getD 0) (.ofScript script)
      let output := grammars ++ linesOf samples.sentences
      match samples.failure? with
      | none => ⟨0, output, "", samples.source.drawn⟩
      | some e =>
        ⟨1, output, linesOf [(Located.inFile options.file e).text SampleError.message],
          samples.source.drawn⟩

/-- A run that ends before it starts. -/
def stopped : Stop → Report
  | .help => ⟨0, helpText, "", 0⟩
  | .version => ⟨0, versionText, "", 0⟩
  | .misuse what => ⟨2, "", what.message ++ "\n\n" ++ usageText, 0⟩

/-- A run with the given arguments, in a folder. -/
def run (arguments : List String) (folder : Folder) (script : List UInt32) : Report :=
  match readArguments arguments with
  | .error stop => stopped stop
  | .ok options => perform options (folder.contents? options.file) script

end CommandLine

end NormalGrammar
