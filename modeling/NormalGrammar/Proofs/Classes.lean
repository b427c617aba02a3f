import Mathlib.Tactic.SplitIfs
import NormalGrammar.Language.Rewriting
import NormalGrammar.Proofs.Shape

/-!
# What the class of a grammar says about rewriting

The class of a grammar is read off its rules, one by one.  Here it is asked what it says about the
sequences that are rewritten, step after step.

* The tests of the classes are read once, by `kind_spec`.  A step changes the length of a sequence as
  its rule changes the length of its left side (`Step.exists_rule`).
* **Regular** grammars keep a promise about whole derivations: what is reached from the start symbol
  holds one nonterminal at most, at the end or at the beginning, and no step shrinks it
  (`regular_derivations`).  Terminals are never rewritten here, so a step is made at the open end, and
  leaves one (`IsRightLinear.replace`).  A grammar without pairs counts as right regular, and so does
  one without rules.
* **Context sensitive** grammars promise less than one would think.  The lengths of the two sides of a
  rule are compared as they are written, and `ε` is written as one symbol.  So a rule that rewrites one
  symbol to `ε` passes for one that does not shrink, and a step by it does shrink a sequence
  (`erasing_shrinks`).  Rules like this are the only exception
  (`contextSensitive_never_shrinks_iff`).
-/

namespace NormalGrammar
namespace Grammar

variable {g : Grammar} {rule : Rule} {x : Symbol} {xs ys front back right : List Symbol}

/-! ## The tests of the classes -/

/-- What the class of a grammar says about its rules. -/
theorem kind_spec (g : Grammar) :
    match g.kind with
    | .rightRegular => g.isContextFree = true ∧
        ∀ rule ∈ g.rules, g.regularRight g.isTerminal g.isNonterminal rule.right = true
    | .leftRegular => g.isContextFree = true ∧
        ∀ rule ∈ g.rules, g.regularRight g.isNonterminal g.isTerminal rule.right = true
    | .contextFree => g.isContextFree = true
    | .contextSensitive => g.isContextFree = false ∧
        ∀ rule ∈ g.rules, rule.left.length ≤ rule.right.length
    | .recursivelyEnumerable => g.isContextFree = false ∧
        ∃ rule ∈ g.rules, rule.right.length < rule.left.length := by
  unfold kind
  split_ifs with hcf hright hleft hlength
  · exact ⟨hcf, List.all_eq_true.1 hright⟩
  · exact ⟨hcf, List.all_eq_true.1 hleft⟩
  · exact hcf
  · exact ⟨by simpa using hcf, by simpa using hlength⟩
  · exact ⟨by simpa using hcf, by simpa using hlength⟩

theorem regularRight_eq_true {first second : Symbol → Bool}
    (h : g.regularRight first second right = true) :
    (∃ a ∈ g.terminals, right = [a]) ∨
      ∃ y z, first y = true ∧ second z = true ∧ right = [y, z] := by
  unfold regularRight at h
  split at h
  · rename_i a
    exact .inl ⟨a, isTerminal_iff.1 h, rfl⟩
  · rename_i y z
    obtain ⟨hy, hz⟩ := (Bool.and_eq_true _ _).mp h
    exact .inr ⟨y, z, hy, hz, rfl⟩
  · cases h

/-! ## Lengths -/

theorem length_replacement (rule : Rule) : rule.replacement.length =
    if rule.right = [Symbol.epsilon] then 0 else rule.right.length := by
  by_cases hε : rule.right = [Symbol.epsilon]
  · simp [Rule.replacement, hε]
  · simp [Rule.replacement, hε]

/-- A step is made by a rule, and changes the length as the rule does. -/
theorem Step.exists_rule (step : g.Step xs ys) : ∃ rule ∈ g.rules,
    ys.length + rule.left.length = xs.length + rule.replacement.length := by
  obtain ⟨hrule, front, back⟩ := step
  rename_i rule
  refine ⟨rule, hrule, ?_⟩
  simp only [List.length_append]
  omega

theorem step_of_mem (hrule : rule ∈ g.rules) : g.Step rule.left rule.replacement := by
  simpa using Step.apply hrule [] []

/-! ## Regular grammars -/

/-- Terminals, then at most one nonterminal. -/
def IsRightLinear (g : Grammar) (xs : List Symbol) : Prop :=
  ∃ (w : List Symbol) (last : Option Symbol), xs = w ++ last.toList ∧
    (∀ a ∈ w, a ∈ g.terminals) ∧ ∀ x ∈ last, x ∈ g.nonterminals

/-- At most one nonterminal, then terminals. -/
def IsLeftLinear (g : Grammar) (xs : List Symbol) : Prop :=
  ∃ (first : Option Symbol) (w : List Symbol), xs = first.toList ++ w ∧
    (∀ x ∈ first, x ∈ g.nonterminals) ∧ ∀ a ∈ w, a ∈ g.terminals

/-- The one form is the other, read backwards. -/
theorem isLeftLinear_iff_reverse : g.IsLeftLinear xs ↔ g.IsRightLinear xs.reverse := by
  have hback : ∀ o : Option Symbol, o.toList.reverse = o.toList := by
    rintro (_ | x) <;> rfl
  constructor
  · rintro ⟨first, w, rfl, hfirst, hw⟩
    exact ⟨w.reverse, first, by rw [List.reverse_append, hback], by simpa using hw, hfirst⟩
  · rintro ⟨w, last, hxs, hw, hlast⟩
    refine ⟨last, w.reverse, ?_, hlast, by simpa using hw⟩
    rw [← List.reverse_reverse xs, hxs, List.reverse_append, hback]

theorem IsRightLinear.append (hfront : ∀ a ∈ front, a ∈ g.terminals) (h : g.IsRightLinear xs) :
    g.IsRightLinear (front ++ xs) := by
  obtain ⟨w, last, rfl, hw, hlast⟩ := h
  refine ⟨front ++ w, last, (List.append_assoc ..).symm, fun a ha => ?_, hlast⟩
  exact (List.mem_append.1 ha).elim (hfront a) (hw a)

theorem IsRightLinear.of_nonterminal (h : g.IsRightLinear (front ++ x :: back))
    (hx : x ∈ g.nonterminals) : (∀ a ∈ front, a ∈ g.terminals) ∧ back = [] := by
  obtain ⟨w, last, he, hw, -⟩ := h
  induction front generalizing w with
  | nil =>
    cases w with
    | nil =>
      cases last with
      | none => cases he
      | some y => exact ⟨nofun, (List.cons.inj he).2⟩
    | cons a w =>
      obtain ⟨rfl, -⟩ := List.cons.inj he
      exact absurd (hw x (List.mem_cons_self ..)) (not_mem_terminals hx)
  | cons y front ih =>
    cases w with
    | nil => cases last <;> simp at he
    | cons a w =>
      obtain ⟨rfl, hrest⟩ := List.cons.inj he
      obtain ⟨hy, hw⟩ := List.forall_mem_cons.1 hw
      obtain ⟨hfront, hback⟩ := ih w hrest hw
      exact ⟨List.forall_mem_cons.2 ⟨hy, hfront⟩, hback⟩

/-- **A nonterminal may make way** for a sequence that is open at its end. -/
theorem IsRightLinear.replace (h : g.IsRightLinear (front ++ x :: back)) (hx : x ∈ g.nonterminals)
    (hright : g.IsRightLinear right) : g.IsRightLinear (front ++ right ++ back) := by
  obtain ⟨hfront, rfl⟩ := h.of_nonterminal hx
  rw [List.append_nil]
  exact hright.append hfront

theorem IsLeftLinear.replace (h : g.IsLeftLinear (front ++ x :: back)) (hx : x ∈ g.nonterminals)
    (hright : g.IsLeftLinear right) : g.IsLeftLinear (front ++ right ++ back) := by
  rw [isLeftLinear_iff_reverse] at h hright ⊢
  rw [List.reverse_append, List.reverse_cons, List.append_assoc, List.singleton_append] at h
  rw [List.reverse_append, List.reverse_append, ← List.append_assoc]
  exact h.replace hx hright

/-- A rule of a regular grammar: a nonterminal makes way for one or two symbols, which have the form
`P`. -/
structure IsRegularRule (g : Grammar) (P : List Symbol → Prop) (rule : Rule) : Prop where
  exists_left : ∃ x ∈ g.nonterminals, rule.left = [x]
  form : P rule.replacement
  length_pos : 1 ≤ rule.replacement.length
  length_le : rule.replacement.length ≤ 2

/-- Right sides of a regular grammar, of which none is `ε`, are put in place as they stand. -/
theorem isRegularRule_of_regularRight {P : List Symbol → Prop} {first second : Symbol → Bool}
    (hcf : g.isContextFree = true) (hrule : rule ∈ g.rules)
    (hregular : g.regularRight first second rule.right = true)
    (hone : ∀ a ∈ g.terminals, P [a])
    (htwo : ∀ y z, first y = true → second z = true → P [y, z]) : g.IsRegularRule P rule := by
  have hleft := isContextFree_iff.1 hcf rule hrule
  rcases regularRight_eq_true hregular with ⟨a, ha, hr⟩ | ⟨y, z, hy, hz, hr⟩
  · have hreplacement : rule.replacement = [a] := by
      simp [Rule.replacement, hr, ne_epsilon_of_mem_terminals ha]
    exact ⟨hleft, hreplacement ▸ hone a ha, by simp [hreplacement], by simp [hreplacement]⟩
  · have hreplacement : rule.replacement = [y, z] := by simp [Rule.replacement, hr]
    exact ⟨hleft, hreplacement ▸ htwo y z hy hz, by simp [hreplacement], by simp [hreplacement]⟩

theorem isRegularRule_of_rightRegular (hkind : g.kind = .rightRegular) (hrule : rule ∈ g.rules) :
    g.IsRegularRule g.IsRightLinear rule := by
  have hspec := g.kind_spec
  rw [hkind] at hspec
  refine isRegularRule_of_regularRight hspec.1 hrule (hspec.2 rule hrule) ?_ ?_
  · exact fun a ha => ⟨[a], none, rfl, by simpa using ha, nofun⟩
  · intro a x ha hx
    exact ⟨[a], some x, rfl, by simpa using ha, by simpa using hx⟩

theorem isRegularRule_of_leftRegular (hkind : g.kind = .leftRegular) (hrule : rule ∈ g.rules) :
    g.IsRegularRule g.IsLeftLinear rule := by
  have hspec := g.kind_spec
  rw [hkind] at hspec
  refine isRegularRule_of_regularRight hspec.1 hrule (hspec.2 rule hrule) ?_ ?_
  · exact fun a ha => ⟨none, [a], rfl, nofun, by simpa using ha⟩
  · intro x a hx ha
    exact ⟨some x, [a], rfl, by simpa using hx, by simpa using ha⟩

/-- What regular rules keep when a nonterminal makes way, holds of all that is reached from the start
symbol, if it holds of that. -/
theorem Rewrites.of_regularRules {P : List Symbol → Prop}
    (hrules : ∀ rule ∈ g.rules, g.IsRegularRule P rule) (hstart : P [g.start])
    (hreplace : ∀ front x back right, P (front ++ x :: back) → x ∈ g.nonterminals → P right →
      P (front ++ right ++ back))
    (h : g.Rewrites [g.start] xs) : P xs := by
  induction h with
  | refl => exact hstart
  | tail _ step ih =>
    obtain ⟨hrule, front, back⟩ := step
    obtain ⟨x, hx, hleft⟩ := (hrules _ hrule).exists_left
    rw [hleft, List.append_assoc, List.singleton_append] at ih
    exact hreplace front x back _ ih hx (hrules _ hrule).form

theorem Step.length_of_regularRules {P : List Symbol → Prop}
    (hrules : ∀ rule ∈ g.rules, g.IsRegularRule P rule) (step : g.Step xs ys) :
    xs.length ≤ ys.length ∧ ys.length ≤ xs.length + 1 := by
  obtain ⟨rule, hrule, hlength⟩ := step.exists_rule
  obtain ⟨⟨x, -, hleft⟩, -, hpos, hle⟩ := hrules rule hrule
  rw [hleft, List.length_singleton] at hlength
  omega

theorem Rewrites.length_le (hstep : ∀ xs ys, g.Step xs ys → xs.length ≤ ys.length)
    (h : g.Rewrites xs ys) : xs.length ≤ ys.length := by
  induction h with
  | refl => exact Nat.le_refl _
  | tail _ step ih => exact Nat.le_trans ih (hstep _ _ step)

/-- **The regular classes are sound for whole derivations**: what is reached from the start symbol of a
right regular grammar are terminals and then at most one nonterminal, and the other way round where the
grammar is left regular.  A step adds at most one symbol and takes none away, so nothing is never
reached. -/
theorem regular_derivations (g : Grammar) :
    (g.kind = .rightRegular → ∀ xs, g.Rewrites [g.start] xs → g.IsRightLinear xs) ∧
      (g.kind = .leftRegular → ∀ xs, g.Rewrites [g.start] xs → g.IsLeftLinear xs) ∧
      (g.kind = .rightRegular ∨ g.kind = .leftRegular →
        (∀ xs ys, g.Step xs ys → xs.length ≤ ys.length ∧ ys.length ≤ xs.length + 1) ∧
          ¬ g.Rewrites [g.start] []) := by
  have hstart := g.wellFormed.start_mem
  refine ⟨fun hkind xs => ?_, fun hkind xs => ?_, fun hkind => ?_⟩
  · refine Rewrites.of_regularRules (fun rule => isRegularRule_of_rightRegular hkind) ?_
      fun _ _ _ _ h hx hright => h.replace hx hright
    exact ⟨[], some g.start, rfl, nofun, by simpa using hstart⟩
  · refine Rewrites.of_regularRules (fun rule => isRegularRule_of_leftRegular hkind) ?_
      fun _ _ _ _ h hx hright => h.replace hx hright
    exact ⟨some g.start, [], rfl, by simpa using hstart, nofun⟩
  · have hstep : ∀ xs ys, g.Step xs ys → xs.length ≤ ys.length ∧ ys.length ≤ xs.length + 1 := by
      intro xs ys step
      rcases hkind with hkind | hkind
      · exact step.length_of_regularRules fun rule => isRegularRule_of_rightRegular hkind
      · exact step.length_of_regularRules fun rule => isRegularRule_of_leftRegular hkind
    refine ⟨hstep, fun h => ?_⟩
    exact absurd (h.length_le fun xs ys step => (hstep xs ys step).1) (by simp)

/-- A grammar whose only pair begins with its nonterminal. -/
def leftward : Grammar where
  start := ⟨"I"⟩
  nonterminals := [⟨"I"⟩]
  terminals := [⟨"i"⟩, ⟨"j"⟩]
  rules := [.ofHead ⟨"I"⟩ [⟨"I"⟩, ⟨"i"⟩], .ofHead ⟨"I"⟩ [⟨"j"⟩]]
  nodup_nonterminals := by decide
  nodup_terminals := by decide
  wellFormed := defect?_eq_none_iff.1 (by decide)

/-- What `leftward` reaches is open at its beginning, and never empty. -/
theorem leftward_derivations : leftward.kind = .leftRegular ∧
    (∀ xs, leftward.Rewrites [leftward.start] xs → leftward.IsLeftLinear xs) ∧
    ¬ leftward.Rewrites [leftward.start] [] := by
  have hkind : leftward.kind = .leftRegular := by decide
  obtain ⟨-, hleft, hlength⟩ := regular_derivations leftward
  exact ⟨hkind, hleft hkind, (hlength (.inr hkind)).2⟩

/-! ## Context sensitive grammars -/

/-- **A context sensitive grammar shrinks a sequence just where it rewrites a symbol to `ε`**: if it has
no rule to `ε`, no step shrinks a sequence, and otherwise some step does.  A step takes away one symbol
at most. -/
theorem contextSensitive_never_shrinks_iff (hkind : g.kind = .contextSensitive) :
    ((∀ xs ys, g.Step xs ys → xs.length ≤ ys.length) ↔ g.NoEmptyRules) ∧
      ∀ xs ys, g.Step xs ys → xs.length ≤ ys.length + 1 := by
  have hspec := g.kind_spec
  rw [hkind] at hspec
  obtain ⟨-, hlength⟩ := hspec
  refine ⟨⟨fun h rule hrule hε => ?_, fun h xs ys step => ?_⟩, fun xs ys step => ?_⟩
  · have hle := h _ _ (step_of_mem hrule)
    rw [length_replacement, if_pos hε, Nat.le_zero, List.length_eq_zero_iff] at hle
    exact (g.wellFormed.rules_over rule hrule).left_ne_nil hle
  · obtain ⟨rule, hrule, hsame⟩ := step.exists_rule
    have hle := hlength rule hrule
    rw [length_replacement, if_neg (h rule hrule)] at hsame
    omega
  · obtain ⟨rule, hrule, hsame⟩ := step.exists_rule
    have hle := hlength rule hrule
    rw [length_replacement] at hsame
    split at hsame
    · rename_i hε
      rw [hε, List.length_singleton] at hle
      omega
    · omega

/-- A grammar with a rule for a symbol between others, none of which shrinks. -/
def sensitive : Grammar where
  start := ⟨"S"⟩
  nonterminals := [⟨"S"⟩, ⟨"D"⟩]
  terminals := [⟨"b"⟩, ⟨"d"⟩]
  rules := [.ofHead ⟨"S"⟩ [⟨"b"⟩, ⟨"D"⟩], ⟨[⟨"b"⟩, ⟨"D"⟩], [⟨"b"⟩, ⟨"d"⟩]⟩]
  nodup_nonterminals := by decide
  nodup_terminals := by decide
  wellFormed := defect?_eq_none_iff.1 (by decide)

/-- Steps in `sensitive` never shrink a sequence. -/
theorem sensitive_never_shrinks : sensitive.kind = .contextSensitive ∧
    ∀ xs ys, sensitive.Step xs ys → xs.length ≤ ys.length := by
  have hkind : sensitive.kind = .contextSensitive := by decide
  have hrules : sensitive.NoEmptyRules := by unfold NoEmptyRules; decide
  exact ⟨hkind, (contextSensitive_never_shrinks_iff hkind).1.2 hrules⟩

/-- The grammar `sensitive` with a rule more, by which `D` vanishes. -/
def erasing : Grammar where
  start := ⟨"S"⟩
  nonterminals := [⟨"S"⟩, ⟨"D"⟩]
  terminals := [⟨"b"⟩, ⟨"d"⟩]
  rules := sensitive.rules ++ [.ofHead ⟨"D"⟩ [Symbol.epsilon]]
  nodup_nonterminals := by decide
  nodup_terminals := by decide
  wellFormed := defect?_eq_none_iff.1 (by decide)

/-- **A step in `erasing` shrinks a sequence** that is reached from the start symbol, although the
grammar counts as context sensitive. -/
theorem erasing_shrinks : erasing.kind = .contextSensitive ∧
    erasing.Rewrites [erasing.start] [⟨"b"⟩, ⟨"D"⟩] ∧ erasing.Step [⟨"b"⟩, ⟨"D"⟩] [⟨"b"⟩] ∧
    ¬ ∀ xs ys, erasing.Step xs ys → xs.length ≤ ys.length := by
  have hS : Rule.ofHead ⟨"S"⟩ [⟨"b"⟩, ⟨"D"⟩] ∈ erasing.rules := by decide
  have hD : Rule.ofHead ⟨"D"⟩ [Symbol.epsilon] ∈ erasing.rules := by decide
  have hfirst : erasing.Step [erasing.start] [⟨"b"⟩, ⟨"D"⟩] := step_of_mem hS
  have hstep : erasing.Step [⟨"b"⟩, ⟨"D"⟩] [⟨"b"⟩] := .apply hD [⟨"b"⟩] []
  refine ⟨by decide, (Rewrites.refl _).tail hfirst, hstep, fun h => ?_⟩
  exact absurd (h _ _ hstep) (by decide)

end Grammar
end NormalGrammar
