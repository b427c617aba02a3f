import NormalGrammar.Proofs.RuleLines
import NormalGrammar.Proofs.Shape
import NormalGrammar.Source.Reader

/-!
# What is read from a file

A grammar is read from the lines of a file just when each of them is blank, a comment or a rule line,
no name is written in two ways, and the rule lines have the parts of a grammar (`ofTexts_eq_ok_iff`).
`IsGrammarOf` says which grammar that is; its symbols are of the kinds that they are written as
(`IsGrammarOf.kind_symbol`).
-/

namespace NormalGrammar

open Sequence

theorem clashesAfter_eq_nil (quoted : String → Bool) {before : List (String × Bool)}
    {os : List Occurrence} (hbefore : ∀ use ∈ before, use.2 = quoted use.1)
    (hos : ∀ o ∈ os, o.quoted = quoted o.name) : clashesAfter before os = [] := by
  induction os generalizing before with
  | nil => rfl
  | cons o rest ih =>
    obtain ⟨ho, hrest⟩ := List.forall_mem_cons.1 hos
    rw [clashesAfter]
    split
    · exact ih hbefore hrest
    · have hother : (o.name, !o.quoted) ∉ before := by
        intro h
        have := hbefore _ h
        simp [ho] at this
      simp only [if_neg hother]
      exact ih (List.forall_mem_cons.2 ⟨ho, hbefore⟩) hrest

namespace Source

variable {α : Type} {results : List (Except Problem α)} {path : String}
  {number : Nat} {texts : List (Option String)} {lines : List Line} {g : Grammar} {word : Word}
  {result : Except Problem Line}

/-! ## Lines -/

theorem problems_eq_nil_iff :
    problems results = [] ↔ results = (values results).map .ok := by
  induction results with
  | nil => simp [problems, values]
  | cons result rest ih =>
    cases result with
    | error p =>
      refine ⟨nofun, fun h => ?_⟩
      have hmem : (.error p : Except Problem α) ∈ (values (.error p :: rest)).map .ok :=
        h ▸ List.mem_cons_self ..
      simp at hmem
    | ok a =>
      have hproblems : problems (.ok a :: rest) = problems rest := rfl
      have hvalues : values (.ok a :: rest) = a :: values rest := rfl
      rw [hproblems, hvalues, ih]
      simp

theorem values_map_ok (as : List α) : values (as.map .ok) = as := by
  induction as with
  | nil => rfl
  | cons a as ih => exact congrArg (a :: ·) ih

/-- What is read from a file is read from one of its lines. -/
theorem exists_of_mem_readFrom (h : result ∈ readFrom path number texts) :
    ∃ text ∈ texts, ∃ n, readLine? path n text = some result := by
  induction texts generalizing number with
  | nil => cases h
  | cons text rest ih =>
    rw [readFrom, List.mem_append, Option.mem_toList] at h
    rcases h with h | h
    · exact ⟨text, List.mem_cons_self .., number, h⟩
    · obtain ⟨text, htext, n, hn⟩ := ih h
      exact ⟨text, List.mem_cons_of_mem _ htext, n, hn⟩

theorem written_of_readLine? {text : Option String} {line : Line}
    (h : readLine? path number text = some (.ok line)) :
    ∃ s, text = some s ∧ Token.Written line.tokens s.toList ∧ line.IsProper := by
  cases text with
  | none => cases h
  | some s =>
    rw [readLine?] at h
    split at h
    · obtain ⟨hwritten, -, hproper⟩ := Line.ofText_eq_ok_iff.1 (Option.some.inj h)
      exact ⟨s, rfl, hwritten, hproper⟩
    · cases h

/-! ## Grammars -/

/-- A grammar has the parts that rule lines give it. -/
structure IsGrammarOf (g : Grammar) (lines : List Line) : Prop where
  start_eq : ((lines.head?.bind (·.left.head?)).map Word.symbol) = some g.start
  nonterminals_eq :
    g.nonterminals = distinct (((lines.flatMap Line.words).filter Word.isBare).map Word.symbol)
  terminals_eq :
    g.terminals = distinct (((lines.flatMap Line.words).filter Word.isQuoted).map Word.symbol)
  rules_eq : g.rules = lines.flatMap Line.rules

/-- The parts that rule lines give a grammar, if the first of them starts with `start`. -/
theorem grammarOf_eq_ok_iff {start : Word} (hstart : lines.head?.bind (·.left.head?) = some start) :
    grammarOf path start lines = .ok g ↔ IsGrammarOf g lines := by
  rw [grammarOf, mapError_eq_ok_iff, Grammar.ofParts_eq_ok_iff]
  constructor
  · rintro ⟨hs, hn, ht, hr⟩
    exact ⟨by rw [hstart, hs]; rfl, hn, ht, hr⟩
  · rintro ⟨hs, hn, ht, hr⟩
    rw [hstart] at hs
    exact ⟨(Option.some.inj hs).symm, hn, ht, hr⟩

theorem ofLines_of_none (hnone : lines.head?.bind (·.left.head?) = none) :
    ofLines path lines = ⟨[], .error [.inFile path .noRules]⟩ := by
  rw [ofLines, hnone]
  rfl

theorem ofLines_of_some {start : Word} (hstart : lines.head?.bind (·.left.head?) = some start) :
    ofLines path lines = ⟨undefinedUses lines,
      if clashes lines = [] then grammarOf path start lines else .error (clashes lines)⟩ := by
  have hnotes : undefinedUses lines ++ [] = undefinedUses lines := List.append_nil _
  rw [ofLines, hstart]
  by_cases hclashes : clashes lines = []
  · rw [if_pos hclashes]
    simp only [ne_eq, hclashes, not_true_eq_false, if_false]
    exact congrArg (Traced.mk · _) hnotes
  · rw [if_neg hclashes]
    simp only [ne_eq, hclashes, not_false_eq_true, if_true]
    exact congrArg (Traced.mk · _) hnotes

/-- A grammar is made of rule lines just when it has their parts, and no name clashes. -/
theorem ofLines_eq_ok_iff :
    (ofLines path lines).result = .ok g ↔ clashes lines = [] ∧ IsGrammarOf g lines := by
  cases hstart : lines.head?.bind (·.left.head?) with
  | none =>
    rw [ofLines_of_none hstart]
    constructor
    · nofun
    · rintro ⟨-, h⟩
      have hfirst := h.start_eq
      rw [hstart] at hfirst
      cases hfirst
  | some start =>
    have hparts : grammarOf path start lines = .ok g ↔ IsGrammarOf g lines :=
      grammarOf_eq_ok_iff hstart
    rw [ofLines_of_some hstart, ← hparts]
    by_cases hclashes : clashes lines = []
    · simp [hclashes]
    · simp [hclashes]

/-- If nothing but rule lines is read, they are all that is looked at. -/
theorem ofTexts_of_readFrom (hread : readFrom path 1 texts = lines.map .ok) :
    ofTexts path texts = ofLines path lines := by
  have hproblems : problems (readFrom path 1 texts) = [] := by
    rw [problems_eq_nil_iff, hread, values_map_ok]
  rw [ofTexts, if_neg (fun h => h hproblems), hread, values_map_ok]

/-- **A grammar is read from lines** just when they hold rule lines only, and it is made of these. -/
theorem ofTexts_eq_ok_iff : (ofTexts path texts).result = .ok g ↔
    ∃ lines, readFrom path 1 texts = lines.map .ok ∧ clashes lines = [] ∧ IsGrammarOf g lines := by
  by_cases hproblems : problems (readFrom path 1 texts) = []
  · have hlines := problems_eq_nil_iff.1 hproblems
    rw [ofTexts_of_readFrom hlines, ofLines_eq_ok_iff]
    constructor
    · exact fun h => ⟨_, hlines, h⟩
    · rintro ⟨lines, hread, h⟩
      rwa [hread, values_map_ok]
  · rw [ofTexts, if_pos hproblems]
    constructor
    · nofun
    · rintro ⟨lines, hlines, -⟩
      rw [problems_eq_nil_iff, hlines, values_map_ok] at hproblems
      exact absurd rfl hproblems

namespace IsGrammarOf

theorem mem_nonterminals_iff (h : IsGrammarOf g lines) {x : Symbol} :
    x ∈ g.nonterminals ↔ ∃ word ∈ lines.flatMap Line.words, word.isBare = true ∧ word.symbol = x := by
  rw [h.nonterminals_eq, mem_distinct, List.mem_map]
  simp only [List.mem_filter, and_assoc]

theorem mem_terminals_iff (h : IsGrammarOf g lines) {x : Symbol} :
    x ∈ g.terminals ↔ ∃ word ∈ lines.flatMap Line.words, word.isQuoted = true ∧ word.symbol = x := by
  rw [h.terminals_eq, mem_distinct, List.mem_map]
  simp only [List.mem_filter, and_assoc]

/-- A word of the lines is a nonterminal just when it is written bare, and a terminal just when it is
quoted. -/
theorem kind_symbol (h : IsGrammarOf g lines) (hword : word ∈ lines.flatMap Line.words) :
    g.isNonterminal word.symbol = word.isBare ∧ g.isTerminal word.symbol = word.isQuoted := by
  cases word with
  | bare name =>
    exact Grammar.kind_of_mem_nonterminals (h.mem_nonterminals_iff.2 ⟨_, hword, rfl, rfl⟩)
  | quoted text =>
    exact Grammar.kind_of_mem_terminals (h.mem_terminals_iff.2 ⟨_, hword, rfl, rfl⟩)
  | epsilon => exact g.kind_epsilon

end IsGrammarOf

end Source
end NormalGrammar
