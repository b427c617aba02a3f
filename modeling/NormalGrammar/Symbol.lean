/-!
# Symbols

A symbol is a name.  Whether it is a terminal or a nonterminal is decided by the grammar that
declares it; the one name with a fixed meaning is `ε`, the empty word.
-/

namespace NormalGrammar

/-- The unit that the sides of rules are made of. -/
structure Symbol where
  name : String
  deriving DecidableEq

namespace Symbol

/-- The symbol that stands for the empty word. -/
def epsilon : Symbol := ⟨"ε"⟩

/-- Whether a symbol stands for the empty word. -/
def isEpsilon (x : Symbol) : Bool := decide (x = epsilon)

@[simp]
theorem isEpsilon_iff {x : Symbol} : x.isEpsilon = true ↔ x = epsilon := by
  simp [isEpsilon]

/-- The symbol whose name is the decimal numeral of `n`. -/
def ofNumber (n : Nat) : Symbol := ⟨n.repr⟩

/-- Symbols are ordered by the code points of their names. -/
instance : LE Symbol := ⟨fun x y => x.name ≤ y.name⟩

instance : DecidableLE Symbol := fun x y => inferInstanceAs (Decidable (x.name ≤ y.name))

/-- The names of some symbols with spaces between them. -/
def spaced (xs : List Symbol) : String := " ".intercalate (xs.map name)

/-- The names of some symbols with commas between them. -/
def listed (xs : List Symbol) : String := ", ".intercalate (xs.map name)

end Symbol

end NormalGrammar
