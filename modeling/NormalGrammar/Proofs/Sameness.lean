import NormalGrammar.Proofs.Simulation

/-!
# Grammars that are the same

Grammars are the same if they differ in nothing but the order in which they declare their symbols
(`Grammar.Same`).  What is asked about a grammar on the way to normal form is asked about its rules,
and whether symbols are declared; so it has the same answer for grammars that are the same.
-/

namespace NormalGrammar
namespace Grammar

variable {g h : Grammar} {x : Symbol} {xs w : List Symbol}

namespace Same

/-! ## Declarations -/

theorem mem_nonterminals_iff (s : Same g h) : x ∈ g.nonterminals ↔ x ∈ h.nonterminals :=
  ⟨s.nonterminals_subset x, s.nonterminals_superset x⟩

theorem mem_terminals_iff (s : Same g h) : x ∈ g.terminals ↔ x ∈ h.terminals :=
  ⟨s.terminals_subset x, s.terminals_superset x⟩

/-- Each symbol is declared once, so the alphabets are rearrangements of each other. -/
theorem nonterminals_perm (s : Same g h) : g.nonterminals.Perm h.nonterminals :=
  (List.perm_ext_iff_of_nodup g.nodup_nonterminals h.nodup_nonterminals).2
    fun _ => s.mem_nonterminals_iff

theorem terminals_perm (s : Same g h) : g.terminals.Perm h.terminals :=
  (List.perm_ext_iff_of_nodup g.nodup_terminals h.nodup_terminals).2 fun _ => s.mem_terminals_iff

/-! ## Tests of symbols and rules -/

theorem isNonterminal_eq (s : Same g h) : g.isNonterminal = h.isNonterminal := by
  funext x
  simp only [isNonterminal, s.mem_nonterminals_iff]

theorem isTerminal_eq (s : Same g h) : g.isTerminal = h.isTerminal := by
  funext x
  simp only [isTerminal, s.mem_terminals_iff]

theorem rulesOf_eq (s : Same g h) : g.rulesOf = h.rulesOf := by
  funext x
  simp only [rulesOf, s.rules_eq]

theorem rewritesNonterminal_eq (s : Same g h) : g.rewritesNonterminal = h.rewritesNonterminal := by
  funext rule
  simp only [rewritesNonterminal, s.isNonterminal_eq]

theorem isRenaming_eq (s : Same g h) : g.isRenaming = h.isRenaming := by
  funext rule
  simp only [isRenaming, s.isNonterminal_eq]

theorem isNormal_eq (s : Same g h) : g.isNormal = h.isNormal := by
  funext rule
  simp only [isNormal, s.rewritesNonterminal_eq, s.isTerminal_eq, s.isNonterminal_eq]

theorem regularRight_eq (s : Same g h) : g.regularRight = h.regularRight := by
  funext first second right
  simp only [regularRight, s.isTerminal_eq]

theorem isContextFree_eq (s : Same g h) : g.isContextFree = h.isContextFree := by
  simp only [isContextFree, s.rules_eq, s.rewritesNonterminal_eq]

/-- **The same grammars are of the same class.** -/
theorem kind_eq (s : Same g h) : g.kind = h.kind := by
  simp only [kind, s.isContextFree_eq, s.rules_eq, s.regularRight_eq, s.isTerminal_eq,
    s.isNonterminal_eq]

/-! ## What is derived and reached -/

/-- **The same words are derived.** -/
theorem derives_iff (s : Same g h) : g.Derives xs w ↔ h.Derives xs w :=
  ⟨Derives.mono s.terminals_subset fun _ hrule => s.rules_eq ▸ hrule,
    Derives.mono s.terminals_superset fun _ hrule => s.rules_eq ▸ hrule⟩

/-- The same symbols are reachable. -/
theorem isReachable (s : Same g h) (hx : g.IsReachable x) : h.IsReachable x := by
  induction hx with
  | start => exact s.start_eq ▸ .start
  | step _ hrule hy hε ih => exact ih.step (s.rulesOf_eq ▸ hrule) hy hε

theorem allReachable_iff (s : Same g h) : g.AllReachable ↔ h.AllReachable := by
  have hreach : ∀ x, g.IsReachable x ↔ h.IsReachable x := fun x => ⟨s.isReachable, s.symm.isReachable⟩
  simp only [AllReachable, List.mem_append, s.mem_nonterminals_iff, s.mem_terminals_iff, hreach]

theorem allProductive_iff (s : Same g h) : g.AllProductive ↔ h.AllProductive := by
  simp only [AllProductive, IsProductive, s.mem_nonterminals_iff, s.derives_iff]

theorem allNormal_iff (s : Same g h) : g.AllNormal ↔ h.AllNormal := by
  simp only [AllNormal, s.rules_eq, s.mem_nonterminals_iff, s.mem_terminals_iff]

end Same

end Grammar
end NormalGrammar
