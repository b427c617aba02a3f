import NormalGrammar.Proofs.BrokenLines
import NormalGrammar.Proofs.Clashes

/-!
# Why rule lines do not make up a grammar

The parts of a grammar are checked three times: when a line is read, when the names of all lines are
compared, and when the parts are put together.  This file asks what is left for the last of these.

* Between them, the first two leave no symbol declared twice, no side empty, no symbol undeclared and no
  empty word beside others (`Line.IsProper.rule_over`).
* They leave a first word that is quoted, and a quoted `ε`, which is a word to the lines and the empty
  word to the grammar (`wellFormed_of_lines`).
* So a file of rule lines is refused for one of these two reasons, or for want of lines, and the other
  defects of parts never come out (`rule_lines_refused`).
-/

namespace NormalGrammar

open Sequence

variable {words : List Word} {line : Line} {lines : List Line} {start : Word} {x : Symbol}

/-! ## The symbols of words -/

theorem mem_writtenSymbols_iff {p : Word → Bool} {make : String → Word}
    (hp : ∀ word, p word = true ↔ ∃ name, word = make name)
    (hmake : ∀ name, (make name).symbol = ⟨name⟩) :
    x ∈ distinct ((words.filter p).map Word.symbol) ↔ make x.name ∈ words := by
  rw [mem_distinct, List.mem_map]
  constructor
  · rintro ⟨word, hword, rfl⟩
    obtain ⟨hword, hway⟩ := List.mem_filter.1 hword
    obtain ⟨name, rfl⟩ := (hp word).1 hway
    rwa [hmake]
  · intro h
    exact ⟨make x.name, List.mem_filter.2 ⟨h, (hp _).2 ⟨_, rfl⟩⟩, hmake _⟩

theorem mem_bareSymbols_iff :
    x ∈ distinct ((words.filter Word.isBare).map Word.symbol) ↔ .bare x.name ∈ words :=
  mem_writtenSymbols_iff (fun word => by cases word <;> simp [Word.isBare]) fun _ => rfl

theorem mem_quotedSymbols_iff :
    x ∈ distinct ((words.filter Word.isQuoted).map Word.symbol) ↔ .quoted x.name ∈ words :=
  mem_writtenSymbols_iff (fun word => by cases word <;> simp [Word.isQuoted]) fun _ => rfl

theorem symbol_declared {word : Word} (hword : word ∈ words) (hε : word ≠ .epsilon) :
    word.symbol ∈ distinct ((words.filter Word.isBare).map Word.symbol) ++
      distinct ((words.filter Word.isQuoted).map Word.symbol) := by
  rw [List.mem_append, mem_bareSymbols_iff, mem_quotedSymbols_iff]
  cases word with
  | bare name => exact .inl hword
  | quoted text => exact .inr hword
  | epsilon => exact absurd rfl hε

/-! ## The parts of a grammar -/

/-- Rules of a rule line are rules over the symbols that it declares, among others. -/
theorem Line.IsProper.rule_over (hproper : line.IsProper) (hwords : line.words ⊆ words) :
    ∀ rule ∈ line.rules, rule.Over (distinct ((words.filter Word.isBare).map Word.symbol) ++
      distinct ((words.filter Word.isQuoted).map Word.symbol)) := by
  refine List.forall_mem_map.2 fun alternative halternative => ⟨?_, ?_, ?_, ?_⟩
  · simpa using hproper.left_ne_nil
  · simpa using hproper.alternative_ne_nil alternative halternative
  · refine List.forall_mem_map.2 fun word hword => symbol_declared ?_ ?_
    · exact hwords (List.mem_append_left _ hword)
    · rintro rfl
      exact hproper.epsilon_not_mem_left hword
  · by_cases hε : .epsilon ∈ alternative
    · rw [hproper.epsilon_alone alternative halternative hε]
      exact .inl rfl
    · refine .inr (List.forall_mem_map.2 fun word hword => symbol_declared ?_ ?_)
      · exact hwords (List.mem_append_right _ (List.mem_flatten.2 ⟨_, halternative, hword⟩))
      · rintro rfl
        exact hε hword

theorem exists_start (hproper : ∀ line ∈ lines, line.IsProper) (hne : lines ≠ []) :
    ∃ start, lines.head?.bind (·.left.head?) = some start ∧
      start ∈ lines.flatMap Line.words ∧ start ≠ .epsilon := by
  obtain ⟨line, rest, rfl⟩ := List.exists_cons_of_ne_nil hne
  have hline := hproper line (List.mem_cons_self ..)
  obtain ⟨start, others, hleft⟩ := List.exists_cons_of_ne_nil hline.left_ne_nil
  refine ⟨start, by simp [hleft], by simp [Line.words, hleft], ?_⟩
  rintro rfl
  exact hline.epsilon_not_mem_left (by simp [hleft])

/-- **The parts are well formed** if no name is written in two ways, the first word is bare, and `ε` is
only written as the empty word. -/
theorem wellFormed_of_lines (hproper : ∀ line ∈ lines, line.IsProper)
    (hone : ∀ name, ¬ IsMixed lines name) (hε : ∀ word ∈ lines.flatMap Line.words,
      word.symbol = .epsilon → word = .epsilon)
    (hstart : start ∈ lines.flatMap Line.words) (hbare : start.isBare = true) :
    WellFormed start.symbol
      (distinct (((lines.flatMap Line.words).filter Word.isBare).map Word.symbol))
      (distinct (((lines.flatMap Line.words).filter Word.isQuoted).map Word.symbol))
      (lines.flatMap Line.rules) := by
  refine ⟨?_, ?_, ?_, ?_, ?_⟩
  · rw [mem_bareSymbols_iff]
    cases start with
    | bare name => exact hstart
    | quoted | epsilon => cases hbare
  · intro x hx hx'
    exact hone x.name ⟨mem_bareSymbols_iff.1 hx, mem_quotedSymbols_iff.1 hx'⟩
  · rw [mem_bareSymbols_iff]
    intro hmem
    cases hε _ hmem rfl
  · rw [mem_quotedSymbols_iff]
    intro hmem
    cases hε _ hmem rfl
  · intro rule hrule
    obtain ⟨line, hline, hrule⟩ := List.mem_flatMap.1 hrule
    refine (hproper line hline).rule_over (fun word hword => ?_) rule hrule
    exact List.mem_flatMap.2 ⟨line, hline, hword⟩

namespace Source

variable {path text : String} {texts : List (Option String)} {contents? : Option ByteArray}
  {place : Location} {number : Nat} {p : Problem} {ps : List Problem} {d : Defect}

/-! ## Lines as a whole -/

section

variable (hproper : ∀ line ∈ lines, line.IsProper) (hone : ∀ name, ¬ IsMixed lines name)
  (hstart : start ∈ lines.flatMap Line.words)

include hone hstart

/-- If the first word is quoted, the start symbol is no nonterminal. -/
theorem grammarOf_of_quoted (hquoted : start.isQuoted = true) : grammarOf path start lines =
    .error [.inFile path (.refused (.undeclaredStart start.symbol))] := by
  cases start with
  | quoted text =>
    refine mapError_eq_error_iff.2 ⟨_, Grammar.ofParts_eq_error_iff.2 ?_, rfl⟩
    refine if_pos fun hmem => ?_
    exact hone text ⟨mem_bareSymbols_iff.1 hmem, hstart⟩
  | bare | epsilon => cases hquoted

/-- If it is bare and `ε` is quoted somewhere, the empty word is declared. -/
theorem grammarOf_of_quoted_epsilon (hbare : start.isBare = true)
    (hε : .quoted Symbol.epsilon.name ∈ lines.flatMap Line.words) : grammarOf path start lines =
      .error [.inFile path (.refused .declaredEpsilon)] := by
  refine mapError_eq_error_iff.2 ⟨_, Grammar.ofParts_eq_error_iff.2 ?_, rfl⟩
  have hdeclared : start.symbol ∈
      distinct (((lines.flatMap Line.words).filter Word.isBare).map Word.symbol) := by
    rw [mem_bareSymbols_iff]
    cases start with
    | bare name => exact hstart
    | quoted | epsilon => cases hbare
  have hdisjoint :
      (distinct (((lines.flatMap Line.words).filter Word.isBare).map Word.symbol)).find?
        (· ∈ distinct (((lines.flatMap Line.words).filter Word.isQuoted).map Word.symbol)) = none := by
    rw [List.find?_eq_none]
    intro x hx hx'
    rw [decide_eq_true_eq, mem_quotedSymbols_iff] at hx'
    exact hone x.name ⟨mem_bareSymbols_iff.1 hx, hx'⟩
  rw [defect?, if_neg (fun h => h hdeclared), hdisjoint]
  exact if_pos (List.mem_append_right _ (mem_quotedSymbols_iff.2 hε))

include hproper

/-- Otherwise, the lines make up a grammar. -/
theorem exists_grammarOf (hbare : start.isBare = true) (hε : ∀ word ∈ lines.flatMap Line.words,
    word.symbol = .epsilon → word = .epsilon) : ∃ g, grammarOf path start lines = .ok g := by
  cases hresult : grammarOf path start lines with
  | ok g => exact ⟨g, rfl⟩
  | error ps =>
    obtain ⟨d, hd, -⟩ := mapError_eq_error_iff.1 hresult
    have hnone := defect?_eq_none_iff.2 (wellFormed_of_lines hproper hone hε hstart hbare)
    rw [Grammar.ofParts_eq_error_iff, hnone] at hd
    cases hd

end

theorem ofLines_eq_noRules_iff (hproper : ∀ line ∈ lines, line.IsProper) :
    (ofLines path lines).result = .error [.inFile path .noRules] ↔ lines = [] := by
  constructor
  · intro h
    by_contra hne
    obtain ⟨start, hhead, -, -⟩ := exists_start hproper hne
    rw [ofLines_of_some hhead] at h
    by_cases hclashes : clashes lines = []
    · rw [if_pos hclashes] at h
      obtain ⟨d, -, hd⟩ := mapError_eq_error_iff.1 h
      simp [Located.inFile] at hd
    · rw [if_neg hclashes, clashes] at h
      obtain ⟨o, -, ho⟩ := List.map_eq_singleton_iff.1 (Except.error.inj h)
      simp [Located.inFile] at ho
  · rintro rfl
    exact congrArg Traced.result (ofLines_of_none rfl)

/-! ## Files of rule lines -/

/-- Whether nothing is wrong with the lines of a file, one by one: they can be decoded, and those that
are meant as rules are rule lines, wherever they stand. -/
def EachReadable (texts : List (Option String)) : Prop :=
  ∀ text ∈ texts, ∃ s, text = some s ∧
    (Line.isRuleText s = true → ∃ place line, Line.ofText place s = .ok line)

theorem exists_ofText (h : Line.ofText place text = .ok line) (place' : Location) :
    ∃ line', Line.ofText place' text = .ok line' := by
  obtain ⟨hwritten, -, hproper⟩ := Line.ofText_eq_ok_iff.1 h
  exact ⟨{ line with place := place' },
    Line.ofText_eq_ok_iff.2 ⟨hwritten, rfl, hproper.placed place'⟩⟩

/-- If nothing is wrong with the lines, rule lines are read, and nothing else. -/
theorem EachReadable.exists_lines (h : EachReadable texts) (path : String) (number : Nat) :
    ∃ lines : List Line, readFrom path number texts = lines.map .ok := by
  induction texts generalizing number with
  | nil => exact ⟨[], rfl⟩
  | cons text rest ih =>
    obtain ⟨⟨s, rfl, hs⟩, hrest⟩ := List.forall_mem_cons.1 h
    obtain ⟨lines, hlines⟩ := ih hrest (number + 1)
    rw [readFrom, hlines, readLine?]
    by_cases hrule : Line.isRuleText s = true
    · obtain ⟨place, line, hline⟩ := hs hrule
      obtain ⟨line', hline'⟩ := exists_ofText hline ⟨path, number⟩
      exact ⟨line' :: lines, by rw [if_pos hrule, hline']; rfl⟩
    · exact ⟨lines, by rw [if_neg hrule]; rfl⟩

theorem readFrom_eq_nil_iff (h : EachReadable texts) : readFrom path number texts = [] ↔
    ∀ text, some text ∈ texts → Line.isRuleText text = false := by
  induction texts generalizing number with
  | nil => simp [readFrom]
  | cons text rest ih =>
    obtain ⟨⟨s, rfl, -⟩, hrest⟩ := List.forall_mem_cons.1 h
    rw [readFrom, List.append_eq_nil_iff, ih hrest, readLine?]
    by_cases hrule : Line.isRuleText s = true
    · simp [hrule]
    · simp [hrule]

section ReadFrom

variable (hread : readFrom path number texts = lines.map .ok)

include hread

/-- What stands for the empty word in a file is the empty word, or a quoted `ε`. -/
theorem eq_of_symbol_eq_epsilon {word : Word} (hword : word ∈ lines.flatMap Line.words)
    (hε : word.symbol = .epsilon) : word = .epsilon ∨ word = .quoted Symbol.epsilon.name := by
  have hname := congrArg Symbol.name hε
  cases word with
  | bare name =>
    -- a bare `ε` is read as the empty word
    obtain ⟨-, hne, -⟩ := isWritable_of_readFrom hread hword
    exact absurd hname hne
  | quoted text => exact .inr (congrArg Word.quoted hname)
  | epsilon => exact .inl rfl

/-- **What rule lines are answered with** if no name is written in two ways. -/
theorem ofLines_answer (hhead : lines.head?.bind (·.left.head?) = some start)
    (hone : ∀ name, ¬ IsMixed lines name) :
    (start.isQuoted = true → (ofLines path lines).result =
        .error [.inFile path (.refused (.undeclaredStart start.symbol))]) ∧
      (start.isQuoted = false → .quoted Symbol.epsilon.name ∈ lines.flatMap Line.words →
        (ofLines path lines).result = .error [.inFile path (.refused .declaredEpsilon)]) ∧
      (start.isQuoted = false → .quoted Symbol.epsilon.name ∉ lines.flatMap Line.words →
        ∃ g, (ofLines path lines).result = .ok g) := by
  have hproper : ∀ line ∈ lines, line.IsProper := fun line hline => isProper_of_readFrom hread hline
  have hclashes : clashes lines = [] := by
    by_contra h
    obtain ⟨name, hname⟩ := clashes_ne_nil_iff.1 h
    exact hone name hname
  have hne : lines ≠ [] := by
    rintro rfl
    cases hhead
  obtain ⟨start', hhead', hmem, hstart⟩ := exists_start hproper hne
  obtain rfl := Option.some.inj (hhead.symm.trans hhead')
  rw [ofLines_of_some hhead, if_pos hclashes]
  have hbare : start.isQuoted = false → start.isBare = true := by
    cases start with
    | bare | quoted => simp [Word.isQuoted, Word.isBare]
    | epsilon => exact absurd rfl hstart
  refine ⟨grammarOf_of_quoted hone hmem, ?_, ?_⟩
  · intro hquoted hε
    exact grammarOf_of_quoted_epsilon hone hmem (hbare hquoted) hε
  · intro hquoted hε
    refine exists_grammarOf hproper hone hmem (hbare hquoted) fun word hword hsymbol => ?_
    rcases eq_of_symbol_eq_epsilon hread hword hsymbol with rfl | rfl
    · rfl
    · exact absurd hword hε

theorem defect_of_ofLines (h : (ofLines path lines).result = .error ps) (hp : p ∈ ps)
    (hcause : p.cause = .refused d) : (∃ x, d = .undeclaredStart x) ∨ d = .declaredEpsilon := by
  cases hhead : lines.head?.bind (·.left.head?) with
  | none =>
    obtain rfl := eq_of_mem_only (congrArg Traced.result (ofLines_of_none hhead)) h hp
    cases hcause
  | some start =>
    by_cases hclashes : clashes lines = []
    · have hone : ∀ name, ¬ IsMixed lines name := fun name hname =>
        clashes_ne_nil_iff.2 ⟨name, hname⟩ hclashes
      obtain ⟨hquoted, hepsilon, hok⟩ := ofLines_answer hread hhead hone
      cases hstart : start.isQuoted with
      | true =>
        obtain rfl := eq_of_mem_only (hquoted hstart) h hp
        obtain rfl := SourceError.refused.inj hcause
        exact .inl ⟨_, rfl⟩
      | false =>
        by_cases hε : .quoted Symbol.epsilon.name ∈ lines.flatMap Line.words
        · obtain rfl := eq_of_mem_only (hepsilon hstart hε) h hp
          obtain rfl := SourceError.refused.inj hcause
          exact .inr rfl
        · obtain ⟨g, hg⟩ := hok hstart hε
          rw [hg] at h
          cases h
    · rw [ofLines_of_some hhead, if_neg hclashes] at h
      obtain rfl := Except.error.inj h
      obtain ⟨o, -, rfl⟩ := List.mem_map.1 hp
      cases hcause

end ReadFrom

/-- A file is refused for a quoted start or a quoted `ε` only. -/
theorem defect_of_ofFile (h : (ofFile path contents?).result = .error ps) (hp : p ∈ ps)
    (hcause : p.cause = .refused d) : (∃ x, d = .undeclaredStart x) ∨ d = .declaredEpsilon := by
  cases contents? with
  | none =>
    obtain rfl := eq_of_mem_only rfl h hp
    cases hcause
  | some contents =>
    by_cases hproblems : problems (readFrom path 1 (Text.readLines contents)) = []
    · have hread := problems_eq_nil_iff.1 hproblems
      rw [ofFile, ofTexts_of_readFrom hread] at h
      exact defect_of_ofLines hread h hp hcause
    · rw [ofFile, ofTexts, if_pos hproblems] at h
      obtain rfl := Except.error.inj h
      rcases cause_of_mem_problems hp with hline | hline
      · rw [hcause] at hline
        cases hline
      · rw [hcause] at hline
        exact hline.elim

/-- **What a file of rule lines is refused for.**  If nothing is wrong with its lines one by one, it is
said to hold no rules just when no line is meant as one.  Otherwise, if no name is written in two ways,
it is refused for a quoted first word, then for a quoted `ε`, and else it holds a grammar.  Nothing else
is ever wrong with the parts of a grammar that is read from a file, whatever the file. -/
theorem rule_lines_refused {contents : ByteArray} (hreadable : EachReadable (Text.readLines contents))
    (path : String) :
    (∃ lines : List Line, readFrom path 1 (Text.readLines contents) = lines.map .ok ∧
      ((ofFile path (some contents)).result = .error [.inFile path .noRules] ↔
        ∀ text, some text ∈ Text.readLines contents → Line.isRuleText text = false) ∧
      ∀ text, some text ∈ Text.readLines contents → Line.isRuleText text = true →
        (∀ name, ¬ IsMixed lines name) →
          ∃ start, lines.head?.bind (·.left.head?) = some start ∧
            (start.isQuoted = true → (ofFile path (some contents)).result =
              .error [.inFile path (.refused (.undeclaredStart start.symbol))]) ∧
            (start.isQuoted = false → .quoted Symbol.epsilon.name ∈ lines.flatMap Line.words →
              (ofFile path (some contents)).result =
                .error [.inFile path (.refused .declaredEpsilon)]) ∧
            (start.isQuoted = false → .quoted Symbol.epsilon.name ∉ lines.flatMap Line.words →
              ∃ g, (ofFile path (some contents)).result = .ok g)) ∧
      ∀ (contents? : Option ByteArray) (ps : List Problem),
        (ofFile path contents?).result = .error ps → ∀ p ∈ ps, ∀ d, p.cause = .refused d →
          (∃ x, d = .undeclaredStart x) ∨ d = .declaredEpsilon := by
  refine ⟨?_, fun contents? ps h p hp d hcause => defect_of_ofFile h hp hcause⟩
  obtain ⟨lines, hread⟩ := hreadable.exists_lines path 1
  have hproper : ∀ line ∈ lines, line.IsProper := fun line hline => isProper_of_readFrom hread hline
  have hnone : lines = [] ↔
      ∀ text, some text ∈ Text.readLines contents → Line.isRuleText text = false := by
    rw [← readFrom_eq_nil_iff hreadable, hread, List.map_eq_nil_iff]
  rw [ofFile, ofTexts_of_readFrom hread]
  refine ⟨lines, hread, (ofLines_eq_noRules_iff hproper).trans hnone, ?_⟩
  intro text htext hrule hone
  have hne : lines ≠ [] := by
    intro hnil
    rw [hnone.1 hnil text htext] at hrule
    cases hrule
  obtain ⟨start, hhead, -, -⟩ := exists_start hproper hne
  exact ⟨start, hhead, ofLines_answer hread hhead hone⟩

/-- A file that could be refused twice: its first word is quoted, and so is an `ε`. -/
def lettered : String := ";\n\"a\" S = \"ε\" | \"\"\nS = ε\n"

/-- `lettered` is refused for its first word. -/
theorem lettered_refused : EachReadable (Text.readLines lettered.toUTF8) ∧
    (ofFile "letters" (some lettered.toUTF8)).result =
      .error [.inFile "letters" (.refused (.undeclaredStart ⟨"a"⟩))] := by
  have htexts : Text.readLines lettered.toUTF8 =
      [some ";", some "\"a\" S = \"ε\" | \"\"", some "S = ε"] := by
    rw [Text.readLines_toUTF8]
    decide
  have hlines : readFrom "letters" 1 (Text.readLines lettered.toUTF8) =
      [⟨[.quoted "a", .bare "S"], [[.quoted "ε"], [.epsilon]], ⟨"letters", 2⟩⟩,
        ⟨[.bare "S"], [[.epsilon]], ⟨"letters", 3⟩⟩].map .ok := by
    rw [htexts]
    cbv
  have hreadable : EachReadable (Text.readLines lettered.toUTF8) := by
    rw [htexts]
    refine List.forall_mem_cons.2 ⟨⟨_, rfl, ?_⟩, List.forall_mem_cons.2 ⟨⟨_, rfl, fun _ => ?_⟩,
      List.forall_mem_singleton.2 ⟨_, rfl, fun _ => ?_⟩⟩⟩
    · intro hrule
      cases hrule
    · exact ⟨⟨"letters", 2⟩, ⟨[.quoted "a", .bare "S"], [[.quoted "ε"], [.epsilon]], _⟩, by cbv⟩
    · exact ⟨⟨"letters", 3⟩, ⟨[.bare "S"], [[.epsilon]], _⟩, by cbv⟩
  obtain ⟨⟨lines, hread, -, hanswer⟩, -⟩ := rule_lines_refused hreadable "letters"
  obtain rfl := List.map_injective_iff.2 (fun _ _ => Except.ok.inj) (hread.symm.trans hlines)
  obtain ⟨start, hhead, hquoted, -⟩ := hanswer "S = ε" (by rw [htexts]; simp) (by cbv)
    fun name hname => clashes_ne_nil_iff.2 ⟨name, hname⟩ (by decide)
  obtain rfl := Option.some.inj hhead
  exact ⟨hreadable, hquoted rfl⟩

end Source
end NormalGrammar
