import NormalGrammar.Sequence
import NormalGrammar.Grammar.Defect

/-!
# Grammars

A `Grammar` is a start symbol, two alphabets and a list of rules that fit together.  The alphabets
are lists without repetitions and the rules are a list, because the order of both is kept and
printed; whether two grammars are the same does not depend on the order of the alphabets
(`Grammar.Same`).  Grammars are made by `Grammar.ofParts`, which refuses parts with a defect.
-/

namespace NormalGrammar

open Sequence

/-- A grammar: everything that is used is declared, and nothing is declared twice. -/
structure Grammar where
  start : Symbol
  nonterminals : List Symbol
  terminals : List Symbol
  rules : List Rule
  nodup_nonterminals : nonterminals.Nodup
  nodup_terminals : terminals.Nodup
  wellFormed : WellFormed start nonterminals terminals rules
  deriving DecidableEq

namespace Grammar

/-! ## Making grammars -/

/-- The grammar with the given parts, or the first thing that is wrong with them.  A symbol that is
listed twice counts once, at its first place. -/
def ofParts (start : Symbol) (nonterminals terminals : List Symbol) (rules : List Rule) :
    Except Defect Grammar :=
  match h : defect? start (distinct nonterminals) (distinct terminals) rules with
  | some e => .error e
  | none => .ok
    { start, nonterminals := distinct nonterminals, terminals := distinct terminals, rules
      nodup_nonterminals := nodup_distinct _
      nodup_terminals := nodup_distinct _
      wellFormed := defect?_eq_none_iff.1 h }

/-- What `ofParts` makes has the given parts, up to repeated declarations. -/
theorem ofParts_eq_ok_iff {start : Symbol} {nonterminals terminals : List Symbol}
    {rules : List Rule} {g : Grammar} :
    ofParts start nonterminals terminals rules = .ok g ↔
      g.start = start ∧ g.nonterminals = distinct nonterminals ∧
        g.terminals = distinct terminals ∧ g.rules = rules := by
  unfold ofParts
  constructor
  · intro h
    split at h
    · simp at h
    · obtain rfl := Except.ok.inj h
      exact ⟨rfl, rfl, rfl, rfl⟩
  · rintro ⟨rfl, hn, ht, rfl⟩
    split
    · rename_i e h
      rw [← hn, ← ht, defect?_eq_none_iff.2 g.wellFormed] at h
      simp at h
    · cases g
      simp_all

/-- Of alphabets that repeat nothing, a grammar is made with just these parts. -/
theorem parts_of_ofParts {start : Symbol} {nonterminals terminals : List Symbol}
    {rules : List Rule} {g : Grammar} (hn : nonterminals.Nodup) (ht : terminals.Nodup)
    (h : ofParts start nonterminals terminals rules = .ok g) :
    g.start = start ∧ g.nonterminals = nonterminals ∧ g.terminals = terminals ∧
      g.rules = rules := by
  obtain ⟨hs, hn', ht', hr⟩ := ofParts_eq_ok_iff.1 h
  rw [distinct_eq_self hn] at hn'
  rw [distinct_eq_self ht] at ht'
  exact ⟨hs, hn', ht', hr⟩

/-- `ofParts` fails with the first defect of the parts. -/
theorem ofParts_eq_error_iff {start : Symbol} {nonterminals terminals : List Symbol}
    {rules : List Rule} {e : Defect} :
    ofParts start nonterminals terminals rules = .error e ↔
      defect? start (distinct nonterminals) (distinct terminals) rules = some e := by
  unfold ofParts
  split <;> simp_all

theorem ofParts_self (g : Grammar) :
    ofParts g.start g.nonterminals g.terminals g.rules = .ok g :=
  ofParts_eq_ok_iff.2 ⟨rfl, (distinct_eq_self g.nodup_nonterminals).symm,
    (distinct_eq_self g.nodup_terminals).symm, rfl⟩

/-- The same grammar around another start symbol. -/
def startingAt (g : Grammar) (start : Symbol) : Except Defect Grammar :=
  ofParts start g.nonterminals g.terminals g.rules

/-! ## Looking things up -/

/-- Whether a symbol is declared as a nonterminal. -/
def isNonterminal (g : Grammar) (x : Symbol) : Bool := decide (x ∈ g.nonterminals)

/-- Whether a symbol is declared as a terminal. -/
def isTerminal (g : Grammar) (x : Symbol) : Bool := decide (x ∈ g.terminals)

/-- The rules for a symbol, in order. -/
def rulesOf (g : Grammar) (x : Symbol) : List Rule :=
  g.rules.filter fun rule => decide (rule.head? = some x)

/-- Whether a rule rewrites exactly one nonterminal. -/
def rewritesNonterminal (g : Grammar) (rule : Rule) : Bool := rule.head?.any g.isNonterminal

/-- Whether a rule's right side is one nonterminal. -/
def isRenaming (g : Grammar) (rule : Rule) : Bool :=
  match rule.right with
  | [x] => g.isNonterminal x
  | _ => false

/-- Whether a rule rewrites a nonterminal to one terminal or to two nonterminals. -/
def isNormal (g : Grammar) (rule : Rule) : Bool :=
  g.rewritesNonterminal rule &&
    match rule.right with
    | [x] => g.isTerminal x
    | [x, y] => g.isNonterminal x && g.isNonterminal y
    | _ => false

@[simp]
theorem isNonterminal_iff {g : Grammar} {x : Symbol} :
    g.isNonterminal x = true ↔ x ∈ g.nonterminals := by
  simp [isNonterminal]

@[simp]
theorem isTerminal_iff {g : Grammar} {x : Symbol} :
    g.isTerminal x = true ↔ x ∈ g.terminals := by
  simp [isTerminal]

@[simp]
theorem mem_rulesOf {g : Grammar} {x : Symbol} {rule : Rule} :
    rule ∈ g.rulesOf x ↔ rule ∈ g.rules ∧ rule.head? = some x := by
  simp [rulesOf]

/-- What stands on a right side is declared, the empty word aside. -/
theorem declared_of_mem_right {g : Grammar} {rule : Rule} {y : Symbol} (hrule : rule ∈ g.rules)
    (hy : y ∈ rule.right) (hε : y ≠ Symbol.epsilon) : y ∈ g.nonterminals ++ g.terminals := by
  rcases (g.wellFormed.rules_over rule hrule).right_declared with hr | hr
  · rw [hr, List.mem_singleton] at hy
    exact absurd hy hε
  · exact hr y hy

/-! ## Sameness -/

/-- Two grammars are the same if they agree up to the order in which symbols are declared. -/
structure Same (g h : Grammar) : Prop where
  start_eq : g.start = h.start
  rules_eq : g.rules = h.rules
  nonterminals_subset : ∀ x ∈ g.nonterminals, x ∈ h.nonterminals
  nonterminals_superset : ∀ x ∈ h.nonterminals, x ∈ g.nonterminals
  terminals_subset : ∀ x ∈ g.terminals, x ∈ h.terminals
  terminals_superset : ∀ x ∈ h.terminals, x ∈ g.terminals

instance (g h : Grammar) : Decidable (Same g h) :=
  decidable_of_iff
    (g.start = h.start ∧ g.rules = h.rules ∧
      (∀ x ∈ g.nonterminals, x ∈ h.nonterminals) ∧ (∀ x ∈ h.nonterminals, x ∈ g.nonterminals) ∧
      (∀ x ∈ g.terminals, x ∈ h.terminals) ∧ (∀ x ∈ h.terminals, x ∈ g.terminals))
    ⟨fun ⟨a, b, c, d, e, f⟩ => ⟨a, b, c, d, e, f⟩, fun ⟨a, b, c, d, e, f⟩ => ⟨a, b, c, d, e, f⟩⟩

theorem Same.refl (g : Grammar) : Same g g :=
  ⟨rfl, rfl, fun _ h => h, fun _ h => h, fun _ h => h, fun _ h => h⟩

theorem Same.symm {g h : Grammar} (s : Same g h) : Same h g :=
  ⟨s.start_eq.symm, s.rules_eq.symm, s.nonterminals_superset, s.nonterminals_subset,
    s.terminals_superset, s.terminals_subset⟩

theorem Same.trans {g h k : Grammar} (s : Same g h) (t : Same h k) : Same g k :=
  ⟨s.start_eq.trans t.start_eq, s.rules_eq.trans t.rules_eq,
    fun x hx => t.nonterminals_subset x (s.nonterminals_subset x hx),
    fun x hx => s.nonterminals_superset x (t.nonterminals_superset x hx),
    fun x hx => t.terminals_subset x (s.terminals_subset x hx),
    fun x hx => s.terminals_superset x (t.terminals_superset x hx)⟩

end Grammar

end NormalGrammar
