import NormalGrammar.Rule

/-!
# What a grammar has to satisfy

`WellFormed` is the data model: a declared start symbol, two disjoint alphabets that do not hold
`ε`, and rules over declared symbols in which `ε` is at most a whole right side.  `defect?` finds
the first thing that is wrong with the parts of a grammar.  The main statement is
`defect?_eq_none_iff`: nothing is found just when the parts are well formed.
-/

namespace NormalGrammar

/-- Why some parts do not make up a grammar. -/
inductive Defect where
  /-- The start symbol is not a nonterminal. -/
  | undeclaredStart (start : Symbol)
  /-- A symbol is declared as a nonterminal and as a terminal. -/
  | declaredTwice (symbol : Symbol)
  /-- The empty word is declared as a symbol. -/
  | declaredEpsilon
  /-- A side of a rule is empty. -/
  | missingSide (rule : Rule)
  /-- A rule uses a symbol that is not declared. -/
  | undeclaredSymbol (symbol : Symbol) (rule : Rule)
  /-- The empty word stands beside other symbols on a right side. -/
  | misplacedEpsilon (rule : Rule)
  deriving DecidableEq

/-- The wording of a grammar error. -/
def Defect.message : Defect → String
  | .undeclaredStart start => "Start symbol `" ++ start.name ++ "` must be a nonterminal"
  | .declaredTwice symbol => "`" ++ symbol.name ++ "` is both a terminal and a nonterminal"
  | .declaredEpsilon =>
    "`" ++ Symbol.epsilon.name ++ "` cannot be declared as a terminal or nonterminal"
  | .missingSide rule => "Rule `" ++ rule.text ++ "` has an empty side"
  | .undeclaredSymbol symbol rule =>
    "Rule `" ++ rule.text ++ "` uses undeclared symbol `" ++ symbol.name ++ "`"
  | .misplacedEpsilon rule =>
    "Rule `" ++ rule.text ++ "` mixes `" ++ Symbol.epsilon.name ++ "` with other symbols"

/-! ## The data model -/

/-- A rule over the declared symbols: both sides are there, and `ε` is at most a right side of
its own. -/
structure Rule.Over (declared : List Symbol) (rule : Rule) : Prop where
  left_ne_nil : rule.left ≠ []
  right_ne_nil : rule.right ≠ []
  left_declared : ∀ x ∈ rule.left, x ∈ declared
  right_declared : rule.right = [Symbol.epsilon] ∨ ∀ x ∈ rule.right, x ∈ declared

/-- The parts of a grammar fit together. -/
structure WellFormed (start : Symbol) (nonterminals terminals : List Symbol) (rules : List Rule) :
    Prop where
  start_mem : start ∈ nonterminals
  disjoint : ∀ x ∈ nonterminals, x ∉ terminals
  epsilon_not_mem_nonterminals : Symbol.epsilon ∉ nonterminals
  epsilon_not_mem_terminals : Symbol.epsilon ∉ terminals
  rules_over : ∀ rule ∈ rules, rule.Over (nonterminals ++ terminals)

/-! ## Finding defects -/

/-- What is wrong with one rule: an empty side first, then a misplaced `ε`, then the first
undeclared symbol, the left side before the right. -/
def Rule.defect? (declared : List Symbol) (rule : Rule) : Option Defect :=
  if rule.left = [] ∨ rule.right = [] then
    some (.missingSide rule)
  else if 1 < rule.right.length ∧ Symbol.epsilon ∈ rule.right then
    some (.misplacedEpsilon rule)
  else
    let unknownLeft := rule.left.find? (· ∉ declared)
    let unknownRight := rule.right.find? fun x => x ∉ declared ∧ x ≠ Symbol.epsilon
    (unknownLeft.or unknownRight).map (.undeclaredSymbol · rule)

/-- What is wrong with the parts of a grammar: the start symbol first, then the alphabets, then
the rules in order. -/
def defect? (start : Symbol) (nonterminals terminals : List Symbol) (rules : List Rule) :
    Option Defect :=
  if start ∉ nonterminals then
    some (.undeclaredStart start)
  else match nonterminals.find? (· ∈ terminals) with
    | some x => some (.declaredTwice x)
    | none =>
      if Symbol.epsilon ∈ nonterminals ++ terminals then
        some .declaredEpsilon
      else
        rules.findSome? (Rule.defect? (nonterminals ++ terminals))

/-- A rule without defect is a rule over the declared symbols, as long as `ε` is not declared. -/
theorem Rule.defect?_eq_none_iff {declared : List Symbol} (hε : Symbol.epsilon ∉ declared)
    {rule : Rule} : rule.defect? declared = none ↔ rule.Over declared := by
  unfold Rule.defect?
  constructor
  · intro h
    split at h
    · simp at h
    · rename_i hsides
      split at h
      · simp at h
      · rename_i hseq
        simp only [Option.map_eq_none_iff, Option.or_eq_none_iff, List.find?_eq_none] at h
        obtain ⟨hleft, hright⟩ := h
        refine ⟨fun hl => hsides (.inl hl), fun hr => hsides (.inr hr),
          fun x hx => by simpa using hleft x hx, ?_⟩
        by_cases hmem : Symbol.epsilon ∈ rule.right
        · left
          have hlen : ¬ 1 < rule.right.length := fun hl => hseq ⟨hl, hmem⟩
          match hr : rule.right with
          | [] => exact absurd hr fun hr => hsides (.inr hr)
          | [x] =>
            rw [hr] at hmem
            rw [List.mem_singleton.1 hmem]
          | _ :: _ :: _ => simp [hr] at hlen
        · right
          intro x hx
          have hxε : x ≠ Symbol.epsilon := fun he => hmem (he ▸ hx)
          simpa [hxε] using hright x hx
  · intro h
    rw [if_neg (by simp [h.left_ne_nil, h.right_ne_nil]), if_neg]
    · simp only [Option.map_eq_none_iff, Option.or_eq_none_iff, List.find?_eq_none]
      refine ⟨fun x hx => by simpa using h.left_declared x hx, fun x hx => ?_⟩
      rcases h.right_declared with hr | hr
      · rw [hr, List.mem_singleton] at hx
        simp [hx]
      · simp [hr x hx]
    · rintro ⟨hlen, hmem⟩
      rcases h.right_declared with hr | hr
      · simp [hr] at hlen
      · exact hε (hr _ hmem)

/-- Nothing is wrong with the parts of a grammar just when they are well formed. -/
theorem defect?_eq_none_iff {start : Symbol} {nonterminals terminals : List Symbol}
    {rules : List Rule} :
    defect? start nonterminals terminals rules = none ↔
      WellFormed start nonterminals terminals rules := by
  unfold defect?
  constructor
  · intro h
    split at h
    · simp at h
    · rename_i hstart
      split at h
      · simp at h
      · rename_i hdisjoint
        split at h
        · simp at h
        · rename_i hε
          rw [List.findSome?_eq_none_iff] at h
          rw [List.find?_eq_none] at hdisjoint
          exact ⟨Decidable.not_not.1 hstart, fun x hx => by simpa using hdisjoint x hx,
            fun hm => hε (List.mem_append_left _ hm), fun hm => hε (List.mem_append_right _ hm),
            fun rule hrule => (Rule.defect?_eq_none_iff hε).1 (h rule hrule)⟩
  · intro h
    have hε : Symbol.epsilon ∉ nonterminals ++ terminals := by
      simp [h.epsilon_not_mem_nonterminals, h.epsilon_not_mem_terminals]
    have hdisjoint : nonterminals.find? (· ∈ terminals) = none := by
      simpa [List.find?_eq_none] using h.disjoint
    rw [if_neg (by simp [h.start_mem]), hdisjoint]
    simp only [if_neg hε, List.findSome?_eq_none_iff]
    exact fun rule hrule => (Rule.defect?_eq_none_iff hε).2 (h.rules_over rule hrule)

end NormalGrammar
