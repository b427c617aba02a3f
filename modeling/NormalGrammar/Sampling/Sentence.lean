import NormalGrammar.Sampling.Choice
import NormalGrammar.Sampling.Height

/-!
# Sampling sentences

A sentence is made by expanding the start symbol, and each nonterminal that this brings, by a rule
chosen at random.  Down to a given depth every rule may be chosen; below it only the rules that
finish soonest, so that the number of further nested expansions is the height of the symbol.
-/

namespace NormalGrammar

/-- Why no sentence was made. -/
inductive SampleError where
  /-- There is no rule for a symbol. -/
  | noRules (symbol : Symbol)
  /-- Below the depth limit, no rule for a symbol finishes. -/
  | neverFinishes (symbol : Symbol)
  deriving DecidableEq

/-- The wording of a failure. -/
def SampleError.message : SampleError → String
  | .noRules symbol => "No definition for nonterminal `" ++ symbol.name ++ "`"
  | .neverFinishes symbol =>
    "Could not finish expanding `" ++ symbol.name ++ "` within the depth limit"

/-- A computation that draws words and may fail; the words stay drawn if it does. -/
abbrev Sampler := ExceptT SampleError (StateM WordSource)

namespace Sampler

/-- One of some rules, of which `first` is the first. -/
def pick (first : Rule) (others : List Rule) : Sampler Rule := do
  let rules := first :: others
  let index ← (modifyGet (WordSource.choose rules.length) : StateM WordSource Nat)
  return rules[index]?.getD first

/-- Expands symbols from left to right, each by `expand`, to one word. -/
def expandEach (expand : Symbol → Sampler (List Symbol)) : List Symbol → Sampler (List Symbol)
  | [] => return []
  | x :: xs => do
    let front ← expand x
    let back ← expandEach expand xs
    return front ++ back

end Sampler

namespace Grammar

/-- The word that a symbol becomes: `ε` the empty word and a terminal itself.  Another symbol is
replaced by the right side of one of its candidate rules, and `expand` goes on with that.  A symbol
that has rules but no candidate among them never finishes. -/
def expandSymbol (g : Grammar) (candidates : Symbol → List Rule)
    (expand : Symbol → Sampler (List Symbol)) (x : Symbol) : Sampler (List Symbol) :=
  if x.isEpsilon then
    return []
  else if g.isTerminal x then
    return [x]
  else if g.rulesOf x = [] then
    throw (.noRules x)
  else match candidates x with
    | [] => throw (.neverFinishes x)
    | first :: others => do
      let rule ← Sampler.pick first others
      Sampler.expandEach expand rule.right

/-- The rules for a symbol that finish soonest, if any finishes. -/
def soonestRules (g : Grammar) (known : Heights) (x : Symbol) : List Rule :=
  (g.rulesOf x).filter fun rule =>
    (known.lookup x).isSome && decide (g.heightOfRule? known rule = known.lookup x)

/-- Expands a symbol of at most the given height by rules that finish soonest. -/
def finish (g : Grammar) (known : Heights) : (height : Nat) → Symbol → Sampler (List Symbol)
  | 0 => g.expandSymbol (fun _ => []) fun _ => return []
  | height + 1 => g.expandSymbol (g.soonestRules known) (g.finish known height)

/-- Expands a symbol by any rules down to the given depth. -/
def expand (g : Grammar) (known : Heights) : (depth : Nat) → Symbol → Sampler (List Symbol)
  | 0 => fun x => g.finish known ((known.lookup x).getD 0) x
  | depth + 1 => g.expandSymbol g.rulesOf (g.expand known depth)

/-- A word of terminals, derived from the start symbol. -/
def sampleWord (g : Grammar) (depth : Nat) : Sampler (List Symbol) :=
  g.expand g.heights depth g.start

/-- A sentence: the names of the terminals of a sampled word, run together. -/
def sample (g : Grammar) (depth : Nat) : Sampler String := do
  let word ← g.sampleWord depth
  return String.join (word.map Symbol.name)

/-- Samples a sentence, with words from a source. -/
def sampleFrom (g : Grammar) (depth : Nat) (source : WordSource) :
    Except SampleError String × WordSource :=
  (g.sample depth).run source

end Grammar

end NormalGrammar
