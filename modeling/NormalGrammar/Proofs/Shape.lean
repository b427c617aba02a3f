import NormalGrammar.Grammar.Kind
import NormalGrammar.Language.Derivation
import NormalGrammar.Language.Reachability

/-!
# Shapes of grammars

What is promised of a grammar on the way to normal form, as propositions of their own: no empty
right sides, no renamings, nothing that derives no word, nothing that is out of reach, and right
sides of one terminal or two nonterminals.  The Boolean tests of rules are read as such propositions
here (`isContextFree_iff`, `isRenaming_iff`, `isNormal_iff`).
-/

namespace NormalGrammar

@[simp]
theorem Rule.ofHead_inj {x y : Symbol} {right right' : List Symbol} :
    ofHead x right = ofHead y right' ↔ x = y ∧ right = right' := by
  simp [ofHead]

namespace Grammar

/-- No rule has the empty word as its right side. -/
def NoEmptyRules (g : Grammar) : Prop := ∀ rule ∈ g.rules, rule.right ≠ [Symbol.epsilon]

/-- No rule has a single nonterminal as its right side. -/
def NoRenamings (g : Grammar) : Prop :=
  ∀ rule ∈ g.rules, ∀ x ∈ g.nonterminals, rule.right ≠ [x]

/-- Every declared nonterminal derives a word. -/
def AllProductive (g : Grammar) : Prop := ∀ x ∈ g.nonterminals, g.IsProductive x

/-- Every declared symbol can be reached from the start symbol. -/
def AllReachable (g : Grammar) : Prop := ∀ x ∈ g.nonterminals ++ g.terminals, g.IsReachable x

/-- Every rule rewrites a nonterminal to a terminal or to two nonterminals. -/
def AllNormal (g : Grammar) : Prop :=
  ∀ rule ∈ g.rules, ∃ x ∈ g.nonterminals,
    (∃ a ∈ g.terminals, rule = .ofHead x [a]) ∨
      ∃ y ∈ g.nonterminals, ∃ z ∈ g.nonterminals, rule = .ofHead x [y, z]

variable {g h : Grammar} {rule : Rule} {x y : Symbol}

theorem NoEmptyRules.mono (hg : g.NoEmptyRules) (hrules : ∀ rule ∈ h.rules, rule ∈ g.rules) :
    h.NoEmptyRules :=
  fun rule hrule => hg rule (hrules rule hrule)

theorem NoRenamings.mono (hg : g.NoRenamings) (hrules : ∀ rule ∈ h.rules, rule ∈ g.rules)
    (hsymbols : ∀ x ∈ h.nonterminals, x ∈ g.nonterminals) : h.NoRenamings :=
  fun rule hrule x hx => hg rule (hrules rule hrule) x (hsymbols x hx)

/-! ## Symbols of different kinds -/

theorem not_mem_terminals (hx : x ∈ g.nonterminals) : x ∉ g.terminals :=
  g.wellFormed.disjoint x hx

theorem ne_epsilon_of_mem_nonterminals (hx : x ∈ g.nonterminals) : x ≠ Symbol.epsilon :=
  fun h => g.wellFormed.epsilon_not_mem_nonterminals (h ▸ hx)

theorem ne_epsilon_of_mem_terminals (hx : x ∈ g.terminals) : x ≠ Symbol.epsilon :=
  fun h => g.wellFormed.epsilon_not_mem_terminals (h ▸ hx)

theorem kind_of_mem_nonterminals (hx : x ∈ g.nonterminals) :
    g.isNonterminal x = true ∧ g.isTerminal x = false := by
  simp [isNonterminal, isTerminal, hx, not_mem_terminals hx]

theorem kind_of_mem_terminals (hx : x ∈ g.terminals) :
    g.isNonterminal x = false ∧ g.isTerminal x = true := by
  have hn : x ∉ g.nonterminals := fun hn => not_mem_terminals hn hx
  simp [isNonterminal, isTerminal, hx, hn]

theorem kind_epsilon (g : Grammar) :
    g.isNonterminal Symbol.epsilon = false ∧ g.isTerminal Symbol.epsilon = false := by
  simp [isNonterminal, isTerminal, g.wellFormed.epsilon_not_mem_nonterminals,
    g.wellFormed.epsilon_not_mem_terminals]

/-- A symbol with a rule is declared. -/
theorem declared_of_mem_rulesOf (h : rule ∈ g.rulesOf x) : x ∈ g.nonterminals ++ g.terminals := by
  obtain ⟨hrule, hhead⟩ := mem_rulesOf.1 h
  refine (g.wellFormed.rules_over rule hrule).left_declared x ?_
  rw [Rule.head?_eq_some_iff.1 hhead]
  exact List.mem_singleton_self x

theorem ne_epsilon_of_mem_rulesOf (h : rule ∈ g.rulesOf x) : x ≠ Symbol.epsilon := by
  rcases List.mem_append.1 (declared_of_mem_rulesOf h) with hx | hx
  · exact ne_epsilon_of_mem_nonterminals hx
  · exact ne_epsilon_of_mem_terminals hx

theorem right_ne_nil (h : rule ∈ g.rules) : rule.right ≠ [] :=
  (g.wellFormed.rules_over rule h).right_ne_nil

/-- The symbols of a right side that is not the empty word are declared. -/
theorem right_declared (h : rule ∈ g.rules) (hε : rule.right ≠ [Symbol.epsilon])
    (hy : y ∈ rule.right) : y ∈ g.nonterminals ∨ y ∈ g.terminals := by
  rcases (g.wellFormed.rules_over rule h).right_declared with hr | hr
  · exact absurd hr hε
  · exact List.mem_append.1 (hr y hy)

/-- The empty word stands on a right side only by itself. -/
theorem ne_epsilon_of_mem_right (h : rule ∈ g.rules) (hε : rule.right ≠ [Symbol.epsilon])
    (hy : y ∈ rule.right) : y ≠ Symbol.epsilon := by
  rcases right_declared h hε hy with hy | hy
  · exact ne_epsilon_of_mem_nonterminals hy
  · exact ne_epsilon_of_mem_terminals hy

/-! ## The tests as propositions -/

/-- The rules for a symbol are those with that symbol alone on the left. -/
theorem mem_rulesOf_iff_left : rule ∈ g.rulesOf x ↔ rule ∈ g.rules ∧ rule.left = [x] := by
  rw [mem_rulesOf, Rule.head?_eq_some_iff]

@[simp]
theorem ofHead_mem_rulesOf {right : List Symbol} :
    Rule.ofHead x right ∈ g.rulesOf x ↔ Rule.ofHead x right ∈ g.rules := by
  simp

/-- A rule rewrites a nonterminal if that nonterminal is its whole left side. -/
theorem rewritesNonterminal_iff :
    g.rewritesNonterminal rule = true ↔ ∃ x ∈ g.nonterminals, rule.left = [x] := by
  simp only [rewritesNonterminal, Option.any_eq_true, isNonterminal_iff, Rule.head?_eq_some_iff]
  constructor
  · rintro ⟨x, hleft, hx⟩
    exact ⟨x, hx, hleft⟩
  · rintro ⟨x, hx, hleft⟩
    exact ⟨x, hleft, hx⟩

/-- A grammar is context free if every rule rewrites one nonterminal. -/
theorem isContextFree_iff :
    g.isContextFree = true ↔ ∀ rule ∈ g.rules, ∃ x ∈ g.nonterminals, rule.left = [x] := by
  simp only [isContextFree, List.all_eq_true, rewritesNonterminal_iff]

/-- Only nonterminals of a context free grammar have rules. -/
theorem mem_nonterminals_of_mem_rulesOf (hcf : g.isContextFree = true) (h : rule ∈ g.rulesOf x) :
    x ∈ g.nonterminals := by
  obtain ⟨hrule, hleft⟩ := mem_rulesOf_iff_left.1 h
  obtain ⟨y, hy, hl⟩ := isContextFree_iff.1 hcf rule hrule
  obtain rfl : x = y := List.singleton_inj.1 (hleft.symm.trans hl)
  exact hy

/-- A renaming has one nonterminal on the right. -/
theorem isRenaming_iff : g.isRenaming rule = true ↔ ∃ x ∈ g.nonterminals, rule.right = [x] := by
  unfold isRenaming
  split
  · rename_i y hr
    simp [hr]
  · rename_i hr
    simp only [Bool.false_eq_true, false_iff, not_exists, not_and]
    exact fun x _ h => hr x h

/-- What a rule in normal form looks like. -/
theorem isNormal_iff : g.isNormal rule = true ↔ ∃ x ∈ g.nonterminals,
    (∃ a ∈ g.terminals, rule = .ofHead x [a]) ∨
      ∃ y ∈ g.nonterminals, ∃ z ∈ g.nonterminals, rule = .ofHead x [y, z] := by
  obtain ⟨left, right⟩ := rule
  rw [isNormal, Bool.and_eq_true, rewritesNonterminal_iff]
  constructor
  · rintro ⟨⟨x, hx, rfl⟩, h⟩
    refine ⟨x, hx, ?_⟩
    split at h
    · rename_i a hr
      exact .inl ⟨a, by simpa using h, by simp_all [Rule.ofHead]⟩
    · rename_i y z hr
      simp only [Bool.and_eq_true, isNonterminal_iff] at h
      exact .inr ⟨y, h.1, z, h.2, by simp_all [Rule.ofHead]⟩
    · cases h
  · rintro ⟨x, hx, ⟨a, ha, h⟩ | ⟨y, hy, z, hz, h⟩⟩
    · obtain ⟨rfl, rfl⟩ := Rule.mk.inj h
      exact ⟨⟨x, hx, rfl⟩, by simpa using ha⟩
    · obtain ⟨rfl, rfl⟩ := Rule.mk.inj h
      exact ⟨⟨x, hx, rfl⟩, by simp [hy, hz]⟩

theorem AllNormal.isContextFree (hg : g.AllNormal) : g.isContextFree = true := by
  refine isContextFree_iff.2 fun rule hrule => ?_
  obtain ⟨x, hx, ⟨a, -, rfl⟩ | ⟨y, -, z, -, rfl⟩⟩ := hg rule hrule
  · exact ⟨x, hx, rfl⟩
  · exact ⟨x, hx, rfl⟩

theorem AllNormal.noEmptyRules (hg : g.AllNormal) : g.NoEmptyRules := by
  intro rule hrule hright
  obtain ⟨x, -, ⟨a, ha, rfl⟩ | ⟨y, -, z, -, rfl⟩⟩ := hg rule hrule
  · exact ne_epsilon_of_mem_terminals ha (List.singleton_inj.1 hright)
  · exact absurd hright (by simp [Rule.ofHead])

theorem AllNormal.noRenamings (hg : g.AllNormal) : g.NoRenamings := by
  intro rule hrule u hu hright
  obtain ⟨x, -, ⟨a, ha, rfl⟩ | ⟨y, -, z, -, rfl⟩⟩ := hg rule hrule
  · obtain rfl := List.singleton_inj.1 hright
    exact not_mem_terminals hu ha
  · exact absurd hright (by simp [Rule.ofHead])

end Grammar
end NormalGrammar
