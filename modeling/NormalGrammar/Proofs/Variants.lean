import Mathlib
import NormalGrammar.Proofs.EpsilonFree

/-!
# The list of rules without empty right sides

Which rules are left when empty right sides have been removed is known as a set
(`mem_rules_epsilonFree`).  Here it is known as a list.

* `EpsilonFree.Extends` holds of the rules at hand all along, empty right sides aside: the given ones
  come first, in their order, then others, none of them twice.
* `epsilonFree_variants` is the textbook construction: the given rules but for those with an empty
  right side, followed by the further rules `A → w` in which nullable nonterminals have been left out
  of a given right side.
-/

namespace NormalGrammar

open Sequence Grammar

variable {g h : Grammar} {rules given result : List Rule} {rule : Rule} {limit passes : Nat}

namespace EpsilonFree

/-- The rules whose right sides are not empty. -/
def lasting (rules : List Rule) : List Rule := rules.filter (!·.isEpsilon)

theorem mem_lasting_iff : rule ∈ lasting rules ↔ rule ∈ rules ∧ rule.right ≠ [Symbol.epsilon] := by
  simp [lasting, Rule.isEpsilon]

theorem lasting_eq_self (h : ∀ rule ∈ rules, rule.right ≠ [Symbol.epsilon]) :
    lasting rules = rules := by
  rw [lasting, List.filter_eq_self]
  intro rule hrule
  simpa [Rule.isEpsilon] using h rule hrule

theorem lasting_erase (hε : rule.right = [Symbol.epsilon]) :
    lasting (rules.erase rule) = lasting rules := by
  rw [lasting, ← List.erase_filter, ← lasting, List.erase_of_not_mem]
  simp [mem_lasting_iff, hε]

/-- Empty right sides aside, `rules` are the given rules in their order, and others after them, each
of them once. -/
def Extends (given rules : List Rule) : Prop :=
  ∃ further, lasting rules = lasting given ++ further ∧ further.Nodup ∧
    ∀ rule ∈ further, rule ∉ lasting given

theorem Extends.refl (given : List Rule) : Extends given given :=
  ⟨[], by simp, by simp, by simp⟩

theorem Extends.erase (h : Extends given rules) (hε : rule.right = [Symbol.epsilon]) :
    Extends given (rules.erase rule) := by
  unfold Extends
  rw [lasting_erase hε]
  exact h

/-- What is added comes last and is new. -/
theorem Extends.add (h : Extends given rules) (candidates : List Rule) :
    Extends given (rules ++ missing rules candidates) := by
  obtain ⟨further, hrules, hnodup, hnew⟩ := h
  have hold : ∀ r ∈ lasting given ++ further, r ∈ rules := by
    intro r hr
    rw [← hrules] at hr
    exact (mem_lasting_iff.1 hr).1
  have hmissing : ∀ r ∈ lasting (missing rules candidates), r ∉ rules := by
    intro r hr
    exact (mem_missing.1 (mem_lasting_iff.1 hr).1).2
  refine ⟨further ++ lasting (missing rules candidates), ?_, ?_, ?_⟩
  · rw [lasting, List.filter_append, ← lasting, ← lasting, hrules, List.append_assoc]
  · rw [List.nodup_append]
    refine ⟨hnodup, (nodup_distinct _).filter _, ?_⟩
    intro r hr r' hr' he
    exact hmissing r' hr' (hold r' (by simp [← he, hr]))
  · intro r hr hgiven
    rcases List.mem_append.1 hr with hr | hr
    · exact hnew r hr hgiven
    · exact hmissing r hr (hold r (by simp [hgiven]))

/-- **What the passes leave extends what was given**, whatever they go through. -/
theorem Extends.run {s : State} (h : Extends given s.rules)
    (hrun : (s.run limit passes).result = .ok result) : Extends given result := by
  induction passes generalizing s with
  | zero => simp [State.run] at hrun
  | succ passes ih =>
    rcases run_eq_ok hrun with ⟨-, hrun⟩ | ⟨-, ⟨-, hrun⟩ | ⟨t, ht, hrun⟩⟩
    · exact ih (h.add _) hrun
    · rw [hrun]
      exact h
    · obtain ⟨rule, -, hε, x, -, rfl⟩ := next_eq_some ht
      exact ih (h.erase hε) hrun

theorem Extends.of_rules (hrun : (EpsilonFree.rules limit given).result = .ok result) :
    Extends given result := by
  obtain ⟨o, ho, hrun⟩ := Traced.result_bind_eq_ok_iff.1 hrun
  cases o with
  | none =>
    obtain rfl : given = result := Except.ok.inj hrun
    exact .refl given
  | some s =>
    obtain ⟨rule, -, hε, x, -, rfl⟩ := next_eq_some ho
    exact Extends.run ((Extends.refl given).erase hε) hrun

end EpsilonFree

namespace Grammar

open EpsilonFree

/-- A variant is a rule `x → w` where `w` is left of a given right side of `x`. -/
theorem isVariant_iff (hcf : g.isContextFree = true) : g.IsVariant rule ↔
    ∃ x v w, rule = .ofHead x w ∧ w ≠ [] ∧ Rule.ofHead x v ∈ g.rules ∧ v ≠ [Symbol.epsilon] ∧
      Drops (fun y => y ∈ g.nonterminals ∧ g.IsNullable y) v w := by
  constructor
  · rintro ⟨hne, v, hv, hε, hd⟩
    obtain ⟨x, -, hleft⟩ := isContextFree_iff.1 hcf _ hv
    obtain ⟨left, w⟩ := rule
    obtain rfl : left = [x] := hleft
    refine ⟨x, v, w, rfl, hne, hv, hε, hd.mono fun y hy hnull => ⟨?_, hnull⟩⟩
    exact hnull.mem_nonterminals hcf (right_declared hv hε hy)
  · rintro ⟨x, v, w, rfl, hne, hv, hε, hd⟩
    exact ⟨hne, v, hv, hε, hd.mono fun y _ hy => hy.2⟩

/-- **The textbook construction.**  Without empty right sides, a grammar has its rules as before but
for those with an empty right side, and after them further rules, each of them new and only once.
Altogether they are the rules `x → w`, with `w` not empty, where `w` is left of a given right side of
`x`, other than the empty word, when some occurrences of nullable nonterminals are left out. -/
theorem epsilonFree_variants (hcf : g.isContextFree = true)
    (hh : (g.epsilonFree limit).result = .ok h) :
    (h.start = g.start ∧ h.nonterminals = g.nonterminals ∧ h.terminals = g.terminals) ∧
      (∃ further, h.rules = g.rules.filter (!·.isEpsilon) ++ further ∧ further.Nodup ∧
        ∀ rule ∈ further, rule ∉ g.rules.filter (!·.isEpsilon)) ∧
      ∀ rule, rule ∈ h.rules ↔
        ∃ x v w, rule = .ofHead x w ∧ w ≠ [] ∧ Rule.ofHead x v ∈ g.rules ∧ v ≠ [Symbol.epsilon] ∧
          Drops (fun y => y ∈ g.nonterminals ∧ g.IsNullable y) v w := by
  obtain ⟨hs, hn, ht, hrun⟩ := epsilonFree_eq_ok hh
  refine ⟨⟨hs, hn, ht⟩, ?_, fun rule => ?_⟩
  · obtain ⟨further, hrules, hnodup, hnew⟩ := Extends.of_rules hrun
    rw [lasting_eq_self (noEmptyRules_epsilonFree hcf hh)] at hrules
    exact ⟨further, hrules, hnodup, hnew⟩
  · rw [mem_rules_epsilonFree hcf hh, isVariant_iff hcf]

/-- A nullable symbol that stands twice on a right side, which becomes nullable by it. -/
def doubled : Grammar where
  start := ⟨"S"⟩
  nonterminals := [⟨"S"⟩, ⟨"A"⟩, ⟨"X"⟩]
  terminals := [⟨"b"⟩, ⟨"x"⟩]
  rules := [.ofHead ⟨"S"⟩ [⟨"A"⟩, ⟨"b"⟩], .ofHead ⟨"X"⟩ [.epsilon], .ofHead ⟨"A"⟩ [⟨"X"⟩, ⟨"X"⟩],
    .ofHead ⟨"X"⟩ [⟨"x"⟩]]
  nodup_nonterminals := by decide
  nodup_terminals := by decide
  wellFormed := defect?_eq_none_iff.1 (by decide)

/-- What `doubled` becomes. -/
def doubledFree : Grammar where
  start := ⟨"S"⟩
  nonterminals := [⟨"S"⟩, ⟨"A"⟩, ⟨"X"⟩]
  terminals := [⟨"b"⟩, ⟨"x"⟩]
  rules := [.ofHead ⟨"S"⟩ [⟨"A"⟩, ⟨"b"⟩], .ofHead ⟨"A"⟩ [⟨"X"⟩, ⟨"X"⟩], .ofHead ⟨"X"⟩ [⟨"x"⟩],
    .ofHead ⟨"A"⟩ [⟨"X"⟩], .ofHead ⟨"S"⟩ [⟨"b"⟩]]
  nodup_nonterminals := by decide
  nodup_terminals := by decide
  wellFormed := defect?_eq_none_iff.1 (by decide)

/-- The construction for `doubled`: two rules are new, and `S → b` comes of `S → A b`. -/
theorem doubled_variants : doubled.isContextFree = true ∧
    (doubled.epsilonFree 10).result = .ok doubledFree ∧
    (∃ further, doubledFree.rules = doubled.rules.filter (!·.isEpsilon) ++ further ∧
      further.Nodup ∧ ∀ rule ∈ further, rule ∉ doubled.rules.filter (!·.isEpsilon)) ∧
    ∃ x v w, Rule.ofHead ⟨"S"⟩ [⟨"b"⟩] = .ofHead x w ∧ w ≠ [] ∧ Rule.ofHead x v ∈ doubled.rules ∧
      v ≠ [Symbol.epsilon] ∧
      Drops (fun y => y ∈ doubled.nonterminals ∧ doubled.IsNullable y) v w := by
  have hcf : doubled.isContextFree = true := by decide
  have hh : (doubled.epsilonFree 10).result = .ok doubledFree := by decide_cbv
  obtain ⟨-, hfurther, hmem⟩ := epsilonFree_variants hcf hh
  exact ⟨hcf, hh, hfurther, (hmem _).1 (by decide)⟩

end Grammar

end NormalGrammar
