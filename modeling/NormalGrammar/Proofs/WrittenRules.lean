import NormalGrammar.Proofs.RoundTrip

/-!
# What rule lines have to say

Rule lines make up a grammar, and a left side with several alternatives may share one line or stand on
several.  This file asks what of the lines the grammar depends on.  The order in which names are first
used, and the clashes between them, look as if they depended on how the rules are spread over lines, since
a left side that is written again is used again; they do not.

* Nothing is reported just when every name is used in one way (`clashes_eq_nil_iff`), wherever it is used.
* Lines with the same rules, word for word, make up the same grammar (`IsGrammarOf.of_wordRules`).
-/

namespace NormalGrammar

open Sequence

/-! ## Names that are used in one way -/

/-- Whether no name is used in two ways. -/
def OneWay (uses : List (String × Bool)) : Prop :=
  ∀ name, ¬ ((name, true) ∈ uses ∧ (name, false) ∈ uses)

theorem OneWay.mono {uses uses' : List (String × Bool)} (h : OneWay uses) (hsub : uses' ⊆ uses) :
    OneWay uses' :=
  fun name hboth => h name ⟨hsub hboth.1, hsub hboth.2⟩

/-- A use may come first if the name is not used otherwise. -/
theorem OneWay.cons {uses : List (String × Bool)} {name : String} {quoted : Bool} (h : OneWay uses)
    (hother : (name, !quoted) ∉ uses) : OneWay ((name, quoted) :: uses) := by
  intro name' hboth
  simp only [List.mem_cons, Prod.mk.injEq] at hboth
  obtain ⟨⟨rfl, rfl⟩ | htrue, hfalse⟩ := hboth
  · rcases hfalse with ⟨-, hfalse⟩ | hfalse
    · cases hfalse
    · exact hother hfalse
  · rcases hfalse with ⟨rfl, rfl⟩ | hfalse
    · exact hother htrue
    · exact h name' ⟨htrue, hfalse⟩

/-- A name, and the way in which it is written where it is used. -/
def Occurrence.written (o : Occurrence) : String × Bool := (o.name, o.quoted)

/-- The ways in which names are used in some lines are those of the words of the lines. -/
theorem map_written_occurrences (lines : List Line) :
    (lines.flatMap Line.occurrences).map Occurrence.written =
      (lines.flatMap Line.words).filterMap Line.nameOf? := by
  simp [List.map_flatMap, List.filterMap_flatMap, Line.occurrences, List.map_filterMap,
    Function.comp_def, Occurrence.written]

theorem clashesAfter_eq_nil_iff {before : List (String × Bool)} {os : List Occurrence}
    (hbefore : OneWay before) : clashesAfter before os = [] ↔
      OneWay (before ++ os.map Occurrence.written) := by
  induction os generalizing before with
  | nil => simpa [clashesAfter] using hbefore
  | cons o rest ih =>
    rw [clashesAfter, List.map_cons, Occurrence.written]
    by_cases hknown : (o.name, o.quoted) ∈ before
    · rw [if_pos hknown, ih hbefore]
      constructor
      · intro h
        apply h.mono
        simp [hknown]
      · intro h
        apply h.mono
        simp
    · rw [if_neg hknown]
      by_cases hother : (o.name, !o.quoted) ∈ before
      · simp only [if_pos hother, reduceCtorEq, false_iff]
        intro h
        apply h o.name
        cases hquoted : o.quoted <;> simp [hquoted] at hother <;> simp [hother]
      · simp only [if_neg hother, ih (hbefore.cons hother)]
        constructor
        · intro h
          apply h.mono
          simp
        · intro h
          apply h.mono
          simp

/-- **Nothing is reported** just when no name is used in two ways, wherever it is used. -/
theorem clashes_eq_nil_iff {lines : List Line} :
    clashes lines = [] ↔ OneWay ((lines.flatMap Line.words).filterMap Line.nameOf?) := by
  have hnone : OneWay [] := fun _ h => absurd h.1 List.not_mem_nil
  rw [clashes, List.map_eq_nil_iff, clashesAfter_eq_nil_iff hnone, map_written_occurrences,
    List.nil_append]

/-! ## Rules in words -/

/-- The rules of a line, in the words that they are written with. -/
def Line.wordRules (line : Line) : List (List Word × List Word) :=
  line.alternatives.map fun alternative => (line.left, alternative)

namespace Source

variable {lines lines' : List Line} {g : Grammar}

theorem rules_eq_map_wordRules (lines : List Line) : lines.flatMap Line.rules =
    (lines.flatMap Line.wordRules).map fun rule =>
      ⟨rule.1.map Word.symbol, rule.2.map Word.symbol⟩ := by
  simp only [List.map_flatMap, Line.wordRules, List.map_map]
  rfl

/-- The words of the rules of lines are those of the rules that are written there. -/
theorem ruleWords_eq_flatMap_wordRules (lines : List Line) :
    ruleWords lines = (lines.flatMap Line.wordRules).flatMap fun rule => rule.1 ++ rule.2 := by
  simp [ruleWords, Line.wordRules, List.flatMap_assoc, List.flatMap_map]

theorem subset_ruleWords (hproper : ∀ line ∈ lines, line.IsProper) :
    lines.flatMap Line.words ⊆ ruleWords lines := by
  intro word hword
  obtain ⟨line, hline, hword⟩ := List.mem_flatMap.1 hword
  rcases List.mem_append.1 hword with hword | hword
  · obtain ⟨alternative, others, halternatives⟩ :=
      List.exists_cons_of_ne_nil (hproper line hline).alternatives_ne_nil
    refine List.mem_flatMap.2 ⟨line, hline, List.mem_flatMap.2 ⟨alternative, ?_, ?_⟩⟩
    · simp [halternatives]
    · exact List.mem_append_left _ hword
  · obtain ⟨alternative, halternative, hword⟩ := List.mem_flatten.1 hword
    exact List.mem_flatMap.2 ⟨line, hline, List.mem_flatMap.2
      ⟨alternative, halternative, List.mem_append_right _ hword⟩⟩

theorem head?_wordRules (hproper : ∀ line ∈ lines, line.IsProper) :
    lines.head?.bind (·.left.head?) = (lines.flatMap Line.wordRules).head?.bind (·.1.head?) := by
  cases lines with
  | nil => rfl
  | cons line rest =>
    obtain ⟨alternative, others, halternatives⟩ :=
      List.exists_cons_of_ne_nil (hproper line (List.mem_cons_self ..)).alternatives_ne_nil
    simp [Line.wordRules, halternatives]

section SameRules

variable (hproper : ∀ line ∈ lines, line.IsProper) (hproper' : ∀ line ∈ lines', line.IsProper)
  (hrules : lines.flatMap Line.wordRules = lines'.flatMap Line.wordRules)

include hproper hproper' hrules

/-- Lines with the same rules have the same symbols in the same order. -/
theorem distinct_words_of_wordRules (p : Word → Bool) :
    distinct (((lines'.flatMap Line.words).filter p).map Word.symbol) =
      distinct (((lines.flatMap Line.words).filter p).map Word.symbol) := by
  rw [← distinct_ruleWords hproper, ← distinct_ruleWords hproper', ruleWords_eq_flatMap_wordRules,
    ruleWords_eq_flatMap_wordRules, hrules]

omit hproper in
theorem clashes_of_wordRules (h : clashes lines = []) : clashes lines' = [] := by
  rw [clashes_eq_nil_iff] at h ⊢
  apply h.mono
  apply List.filterMap_subset
  calc lines'.flatMap Line.words
    _ ⊆ ruleWords lines' := subset_ruleWords hproper'
    _ = ruleWords lines := by
      rw [ruleWords_eq_flatMap_wordRules, ruleWords_eq_flatMap_wordRules, hrules]
    _ ⊆ lines.flatMap Line.words := ruleWords_subset lines

/-- **Lines with the same rules make up the same grammar.** -/
theorem IsGrammarOf.of_wordRules (h : IsGrammarOf g lines) : IsGrammarOf g lines' := by
  refine ⟨?_, ?_, ?_, ?_⟩
  · rw [head?_wordRules hproper', ← hrules, ← head?_wordRules hproper]
    exact h.start_eq
  · rw [distinct_words_of_wordRules hproper hproper' hrules]
    exact h.nonterminals_eq
  · rw [distinct_words_of_wordRules hproper hproper' hrules]
    exact h.terminals_eq
  · rw [rules_eq_map_wordRules, ← hrules, ← rules_eq_map_wordRules]
    exact h.rules_eq

end SameRules

end Source
end NormalGrammar
