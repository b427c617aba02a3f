import NormalGrammar.Proofs.Reading
import NormalGrammar.Normal.Pipeline

/-!
# Which parts make up a grammar

Every grammar is made by `Grammar.ofParts`, which looks for defects in a fixed order and drops repeated
declarations on the way.  Here this is compared with the data model, for all parts, and followed through
all that the program does with grammars.

* What a defect says of some parts is `Defect.IsPresent`.  A defect that is found is there
  (`isPresent_of_defect?`), and one that is there breaks the data model
  (`Defect.IsPresent.not_wellFormed`); so parts are accepted exactly if they are well formed, and what is
  said against others is true.
* A grammar is only come by in the ways of `Grammar.Obtained`, and each of them ends with `ofParts`
  (`Obtained.exists_parts`).  What has been made of parts once is made of its own parts again, since
  nothing is left in it to be dropped (`ofParts_again`).
* Another start symbol changes nothing else (`startingAt_eq_ok`), so of start symbols that are chosen one
  after the other only the last is left (`startingAt_of_foldlM`).
-/

namespace NormalGrammar

open Sequence

variable {start x : Symbol} {nonterminals terminals declared : List Symbol} {rules : List Rule}
  {rule : Rule} {d : Defect}

/-! ## Defects that are there -/

/-- What a defect says of the parts of a grammar. -/
def Defect.IsPresent (start : Symbol) (nonterminals terminals : List Symbol) (rules : List Rule) :
    Defect → Prop
  | .undeclaredStart x => x = start ∧ x ∉ nonterminals
  | .declaredTwice x => x ∈ nonterminals ∧ x ∈ terminals
  | .declaredEpsilon => Symbol.epsilon ∈ nonterminals ∨ Symbol.epsilon ∈ terminals
  | .missingSide rule => rule ∈ rules ∧ (rule.left = [] ∨ rule.right = [])
  | .undeclaredSymbol x rule => rule ∈ rules ∧ x ∉ nonterminals ∧ x ∉ terminals ∧
      (x ∈ rule.left ∨ x ∈ rule.right ∧ x ≠ Symbol.epsilon)
  | .misplacedEpsilon rule => rule ∈ rules ∧ 1 < rule.right.length ∧ Symbol.epsilon ∈ rule.right

/-- A defect that is found in a rule is there. -/
theorem Rule.isPresent_of_defect? (hrule : rule ∈ rules)
    (h : rule.defect? (nonterminals ++ terminals) = some d) :
    d.IsPresent start nonterminals terminals rules := by
  unfold Rule.defect? at h
  split at h
  · rename_i hside
    obtain rfl := Option.some.inj h
    exact ⟨hrule, hside⟩
  · split at h
    · rename_i hmixed
      obtain rfl := Option.some.inj h
      exact ⟨hrule, hmixed⟩
    · obtain ⟨x, hx, rfl⟩ := Option.map_eq_some_iff.1 h
      rcases Option.or_eq_some_iff.1 hx with hx | ⟨-, hx⟩
      · have hdeclared := List.find?_some hx
        simp only [List.mem_append, not_or, decide_eq_true_eq] at hdeclared
        exact ⟨hrule, hdeclared.1, hdeclared.2, .inl (List.mem_of_find?_eq_some hx)⟩
      · have hdeclared := List.find?_some hx
        simp only [List.mem_append, not_or, decide_eq_true_eq] at hdeclared
        obtain ⟨⟨hn, ht⟩, hε⟩ := hdeclared
        exact ⟨hrule, hn, ht, .inr ⟨List.mem_of_find?_eq_some hx, hε⟩⟩

/-- **A defect that is found is there.** -/
theorem isPresent_of_defect? (h : defect? start nonterminals terminals rules = some d) :
    d.IsPresent start nonterminals terminals rules := by
  unfold defect? at h
  split at h
  · rename_i hstart
    obtain rfl := Option.some.inj h
    exact ⟨rfl, hstart⟩
  · split at h
    · rename_i x hx
      obtain rfl := Option.some.inj h
      exact ⟨List.mem_of_find?_eq_some hx, by simpa using List.find?_some hx⟩
    · split at h
      · rename_i hε
        obtain rfl := Option.some.inj h
        exact List.mem_append.1 hε
      · obtain ⟨rule, hrule, hd⟩ := List.exists_of_findSome?_eq_some h
        exact Rule.isPresent_of_defect? hrule hd

/-- **A defect that is there breaks the data model.** -/
theorem Defect.IsPresent.not_wellFormed (h : d.IsPresent start nonterminals terminals rules) :
    ¬ WellFormed start nonterminals terminals rules := by
  intro hwell
  cases d with
  | undeclaredStart x =>
    obtain ⟨rfl, hx⟩ := h
    exact hx hwell.start_mem
  | declaredTwice x => exact hwell.disjoint x h.1 h.2
  | declaredEpsilon =>
    exact h.elim hwell.epsilon_not_mem_nonterminals hwell.epsilon_not_mem_terminals
  | missingSide rule =>
    have hover := hwell.rules_over rule h.1
    exact h.2.elim hover.left_ne_nil hover.right_ne_nil
  | undeclaredSymbol x rule =>
    obtain ⟨hrule, hn, ht, hx⟩ := h
    have hover := hwell.rules_over rule hrule
    have hundeclared : x ∉ nonterminals ++ terminals := by simp [hn, ht]
    rcases hx with hx | ⟨hx, hε⟩
    · exact hundeclared (hover.left_declared x hx)
    · rcases hover.right_declared with hr | hr
      · exact hε (List.mem_singleton.1 (hr ▸ hx))
      · exact hundeclared (hr x hx)
  | misplacedEpsilon rule =>
    obtain ⟨hrule, hlength, hε⟩ := h
    rcases (hwell.rules_over rule hrule).right_declared with hr | hr
    · simp [hr] at hlength
    · rcases List.mem_append.1 (hr _ hε) with hmem | hmem
      · exact hwell.epsilon_not_mem_nonterminals hmem
      · exact hwell.epsilon_not_mem_terminals hmem

theorem Defect.isPresent_distinct_iff :
    d.IsPresent start (distinct nonterminals) (distinct terminals) rules ↔
      d.IsPresent start nonterminals terminals rules := by
  cases d <;> simp [Defect.IsPresent]

/-- **The data model is that no defect is there.** -/
theorem wellFormed_iff : WellFormed start nonterminals terminals rules ↔
    ∀ d : Defect, ¬ d.IsPresent start nonterminals terminals rules := by
  constructor
  · exact fun hwell d h => h.not_wellFormed hwell
  · intro hnone
    rw [← defect?_eq_none_iff, Option.eq_none_iff_forall_ne_some]
    exact fun d hd => hnone d (isPresent_of_defect? hd)

theorem wellFormed_distinct_iff :
    WellFormed start (distinct nonterminals) (distinct terminals) rules ↔
      WellFormed start nonterminals terminals rules := by
  simp only [wellFormed_iff, Defect.isPresent_distinct_iff]

namespace Grammar

variable {g h : Grammar}

/-! ## Making grammars -/

/-- **What is said against parts is true of them.** -/
theorem isPresent_of_ofParts (h : ofParts start nonterminals terminals rules = .error d) :
    d.IsPresent start nonterminals terminals rules :=
  Defect.isPresent_distinct_iff.1 (isPresent_of_defect? (ofParts_eq_error_iff.1 h))

/-- **Parts make up a grammar exactly if they are well formed.** -/
theorem exists_ofParts_iff :
    (∃ g, ofParts start nonterminals terminals rules = .ok g) ↔
      WellFormed start nonterminals terminals rules := by
  constructor
  · rintro ⟨g, hg⟩
    obtain ⟨rfl, hn, ht, rfl⟩ := ofParts_eq_ok_iff.1 hg
    rw [← wellFormed_distinct_iff, ← hn, ← ht]
    exact g.wellFormed
  · intro hwell
    cases hparts : ofParts start nonterminals terminals rules with
    | ok g => exact ⟨g, rfl⟩
    | error d => exact absurd hwell (isPresent_of_ofParts hparts).not_wellFormed

/-- **What is made of parts is made of its own parts again.** -/
theorem ofParts_again (h : ofParts start nonterminals terminals rules = .ok g) :
    ofParts g.start g.nonterminals g.terminals g.rules = .ok g := by
  obtain ⟨-, hn, ht, -⟩ := ofParts_eq_ok_iff.1 h
  refine ofParts_eq_ok_iff.2 ⟨rfl, ?_, ?_, rfl⟩
  · rw [hn, distinct_eq_self (nodup_distinct _)]
  · rw [ht, distinct_eq_self (nodup_distinct _)]

/-- The ways to come by a grammar. -/
inductive Obtained : Grammar → Prop
  | made {start : Symbol} {nonterminals terminals : List Symbol} {rules : List Rule} {g : Grammar} :
      ofParts start nonterminals terminals rules = .ok g → Obtained g
  | restarted {g h : Grammar} {start : Symbol} : Obtained g → g.startingAt start = .ok h → Obtained h
  | read {path : String} {contents? : Option ByteArray} {g : Grammar} :
      (Source.ofFile path contents?).result = .ok g → Obtained g
  | staged {g h : Grammar} {limit : Nat} {stage : Stage} : Obtained g →
      (stage.run limit g).result = .ok h → Obtained h

theorem exists_parts_of_ofFile {path : String} {contents? : Option ByteArray}
    (h : (Source.ofFile path contents?).result = .ok g) :
    ∃ start nonterminals terminals rules, ofParts start nonterminals terminals rules = .ok g := by
  cases contents? with
  | none => cases h
  | some contents =>
    obtain ⟨lines, -, -, hparts⟩ := Source.ofTexts_eq_ok_iff.1 h
    exact ⟨_, _, _, _, ofParts_eq_ok_iff.2
      ⟨rfl, hparts.nonterminals_eq, hparts.terminals_eq, hparts.rules_eq⟩⟩

theorem exists_parts_of_run {limit : Nat} {stage : Stage}
    (hh : (stage.run limit g).result = .ok h) :
    ∃ start nonterminals terminals rules, ofParts start nonterminals terminals rules = .ok h := by
  cases stage with
  | epsilonRules | renamings | normalForm =>
    obtain ⟨found, -, hb⟩ := Traced.result_bind_eq_ok_iff.1 hh
    exact ⟨_, _, _, _, Stage.build_eq_ok_iff.1 hb⟩
  | reachability | productivity =>
    obtain ⟨found, -, hb⟩ := Traced.result_bind_eq_ok_iff.1 hh
    obtain ⟨_, -, hb⟩ := Traced.result_bind_eq_ok_iff.1 hb
    exact ⟨_, _, _, _, Stage.build_eq_ok_iff.1 hb⟩

/-- **Every grammar is made of parts**, in whatever way it is come by. -/
theorem Obtained.exists_parts (h : Obtained g) :
    ∃ start nonterminals terminals rules, ofParts start nonterminals terminals rules = .ok g := by
  cases h with
  | made h => exact ⟨_, _, _, _, h⟩
  | restarted _ h => exact ⟨_, _, _, _, h⟩
  | read h => exact exists_parts_of_ofFile h
  | staged _ h => exact exists_parts_of_run h

/-! ## Other start symbols -/

/-- Another start symbol changes nothing else. -/
theorem startingAt_eq_ok (hh : g.startingAt start = .ok h) :
    h.nonterminals = g.nonterminals ∧ h.terminals = g.terminals ∧ h.rules = g.rules :=
  (parts_of_ofParts g.nodup_nonterminals g.nodup_terminals hh).2

/-- **Of start symbols that are chosen one after the other, only the last is left**: what was chosen
before makes no difference. -/
theorem startingAt_of_foldlM {starts : List Symbol} (hh : starts.foldlM startingAt g = .ok h) :
    h.startingAt start = g.startingAt start := by
  induction starts generalizing g with
  | nil =>
    obtain rfl : g = h := Except.ok.inj hh
    rfl
  | cons first starts ih =>
    rw [List.foldlM_cons] at hh
    cases hfirst : g.startingAt first with
    | error d =>
      rw [hfirst] at hh
      cases hh
    | ok k =>
      rw [hfirst] at hh
      obtain ⟨hn, ht, hr⟩ := startingAt_eq_ok hfirst
      rw [ih hh, startingAt, startingAt, hn, ht, hr]

/-! ## The data model is checked and kept -/

/-- **Exactly what fits the data model is accepted, and stays as it is.**  Parts make up a grammar exactly
if they are well formed, and what is said against them otherwise is true.  A grammar that is come by in
any way is made of its own parts again, in the same order and of the same class.  Of start symbols that
are chosen one after the other, the last has the same outcome as it has alone. -/
theorem wellFormed_parts_accepted :
    (∀ start nonterminals terminals rules,
        ((∃ g, ofParts start nonterminals terminals rules = .ok g) ↔
            WellFormed start nonterminals terminals rules) ∧
          ∀ d, ofParts start nonterminals terminals rules = .error d →
            d.IsPresent start nonterminals terminals rules) ∧
      (∀ g, Obtained g → ofParts g.start g.nonterminals g.terminals g.rules = .ok g) ∧
      ∀ (g h : Grammar) (starts : List Symbol), starts.foldlM startingAt g = .ok h →
        ∀ start, (starts ++ [start]).foldlM startingAt g = g.startingAt start := by
  refine ⟨fun start nonterminals terminals rules => ?_, fun g hg => ?_, fun g h starts hh start => ?_⟩
  · exact ⟨exists_ofParts_iff, fun d => isPresent_of_ofParts⟩
  · obtain ⟨start, nonterminals, terminals, rules, hparts⟩ := hg.exists_parts
    exact ofParts_again hparts
  · have hlast : [start].foldlM startingAt h = h.startingAt start := by simp
    rw [List.foldlM_append, hh]
    exact hlast.trans (startingAt_of_foldlM hh)

end Grammar
end NormalGrammar
