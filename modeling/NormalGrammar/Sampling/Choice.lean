/-!
# Choosing with random words

A uniform choice among `k` candidates is made from 32-bit words.  A word times `k` is cut into a
high and a low half: the high half is the choice, unless the low half lies above the zone in which
every choice has equally many words, and then the next word is tried.  Words come from a script,
and are zero when the script is over.
-/

namespace NormalGrammar

/-- The words that are still to come, and how many have been drawn. -/
structure WordSource where
  script : List UInt32
  drawn : Nat
  deriving DecidableEq

namespace WordSource

/-- The source that has drawn nothing yet. -/
def ofScript (script : List UInt32) : WordSource := ⟨script, 0⟩

/-- The largest low half that is accepted for `k` candidates: `k` shifted left to fill 32 bits,
less one. -/
def zone (k : Nat) : Nat := k <<< (31 - k.log2) - 1

/-- Whether a word decides among `k` candidates. -/
def accepts (k : Nat) (word : UInt32) : Bool := decide (word.toNat * k % UInt32.size ≤ zone k)

/-- The choice that a word makes among `k` candidates. -/
def choice (k : Nat) (word : UInt32) : Nat := word.toNat * k / UInt32.size

/-- Chooses among `k` candidates, after `drawn` words have been drawn. -/
def chooseFrom (k : Nat) : (script : List UInt32) → (drawn : Nat) → Nat × WordSource
  | [], drawn => (0, ⟨[], drawn + 1⟩)
  | word :: rest, drawn =>
    if accepts k word then (choice k word, ⟨rest, drawn + 1⟩)
    else chooseFrom k rest (drawn + 1)

/-- Chooses among `k` candidates. -/
def choose (k : Nat) (source : WordSource) : Nat × WordSource :=
  chooseFrom k source.script source.drawn

end WordSource

end NormalGrammar
