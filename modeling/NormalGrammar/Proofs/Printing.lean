import NormalGrammar.Proofs.Reading
import NormalGrammar.Proofs.TextLines
import NormalGrammar.Source.Writer

/-!
# Reading back a grammar that was written

Every rule of a grammar is written as a line of its own.  The words of this line are those of the
rule (`Grammar.line`), and they are read back from its text (`Printable.written_ruleText`).  Lines
that are made of a grammar's rules give this grammar, if it declares its symbols in the order in
which they are read (`Printable.isGrammarOf`), so what is written is read back
(`Printable.ofFile_fileText`).
-/

namespace NormalGrammar
namespace Grammar

open Sequence

variable {g : Grammar} {rule : Rule} {x : Symbol} {side : List Symbol} {tokens : List Token}
  {cs : List Char} {path : String} {number : Nat} {place : Location}

/-! ## Symbols as words -/

/-- The word that a symbol is written as. -/
def word (g : Grammar) (x : Symbol) : Word :=
  if x.isEpsilon then .epsilon else if g.isTerminal x then .quoted x.name else .bare x.name

@[simp]
theorem symbol_word (g : Grammar) (x : Symbol) : (g.word x).symbol = x := by
  unfold word
  split
  · exact (Symbol.isEpsilon_iff.1 ‹_›).symm
  · split <;> rfl

@[simp]
theorem word_epsilon (g : Grammar) : g.word Symbol.epsilon = .epsilon := by
  simp [word]

theorem epsilon_mem_map_word_iff : Word.epsilon ∈ side.map g.word ↔ Symbol.epsilon ∈ side := by
  rw [List.mem_map]
  constructor
  · rintro ⟨x, hx, hword⟩
    have hsymbol : x = Symbol.epsilon := by
      rw [← g.symbol_word x, hword]
      rfl
    exact hsymbol ▸ hx
  · exact fun h => ⟨_, h, g.word_epsilon⟩

theorem left_subset_usedSymbols (hrule : rule ∈ g.rules) : rule.left ⊆ g.usedSymbols :=
  fun _ hx => List.mem_flatMap.2 ⟨rule, hrule, List.mem_append_left _ hx⟩

theorem right_subset_usedSymbols (hrule : rule ∈ g.rules) : rule.right ⊆ g.usedSymbols :=
  fun _ hx => List.mem_flatMap.2 ⟨rule, hrule, List.mem_append_right _ hx⟩

/-- What the symbols that a grammar uses are written as. -/
theorem word_cases (hx : x ∈ g.usedSymbols) :
    (x = Symbol.epsilon ∧ g.word x = .epsilon) ∨ (x ∈ g.nonterminals ∧ g.word x = .bare x.name) ∨
      (x ∈ g.terminals ∧ g.word x = .quoted x.name) := by
  by_cases hε : x = Symbol.epsilon
  · exact .inl ⟨hε, by rw [hε, word_epsilon]⟩
  · right
    have hdeclared : x ∈ g.nonterminals ∨ x ∈ g.terminals := by
      obtain ⟨rule, hrule, hx⟩ := List.mem_flatMap.1 hx
      rcases List.mem_append.1 hx with hx | hx
      · exact List.mem_append.1 ((g.wellFormed.rules_over rule hrule).left_declared x hx)
      · exact List.mem_append.1 (declared_of_mem_right hrule hx hε)
    rcases hdeclared with hn | ht
    · exact .inl ⟨hn, by simp [word, hε, not_mem_terminals hn]⟩
    · exact .inr ⟨ht, by simp [word, hε, ht]⟩

/-- The word of a symbol that is used is bare just when the symbol is a nonterminal, and quoted just
when it is a terminal. -/
theorem kind_word (hx : x ∈ g.usedSymbols) :
    g.isNonterminal x = (g.word x).isBare ∧ g.isTerminal x = (g.word x).isQuoted := by
  rcases word_cases hx with ⟨rfl, hword⟩ | ⟨hn, hword⟩ | ⟨ht, hword⟩ <;> rw [hword]
  · exact g.kind_epsilon
  · exact kind_of_mem_nonterminals hn
  · exact kind_of_mem_terminals ht

theorem spells_word (g : Grammar) (x : Symbol) :
    Token.Spells (g.word x).token (g.symbolText x).toList (g.word x).isBare := by
  unfold word symbolText
  split
  · exact .twoQuotes
  · split
    · have hquoted : ("\"" ++ x.name ++ "\"").toList = '"' :: x.name.toList ++ ['"'] := by simp
      rw [hquoted]
      exact .quoted x.name
    · exact .bare x.name

theorem map_symbol_filter {xs : List Symbol} {p : Word → Bool} {kind : Symbol → Bool}
    (hkind : ∀ x ∈ xs, kind x = p (g.word x)) :
    ((xs.map g.word).filter p).map Word.symbol = xs.filter kind := by
  have hsymbol : Word.symbol ∘ g.word = id := funext g.symbol_word
  rw [List.filter_map, List.map_map, hsymbol, List.map_id]
  exact List.filter_congr fun x hx => (hkind x hx).symm

/-! ## Rules as lines -/

/-- The line that a rule is written as. -/
def line (g : Grammar) (place : Location) (rule : Rule) : Line :=
  ⟨rule.left.map g.word, [rule.right.map g.word], place⟩

/-- The lines that rules are written as, from line `number` on. -/
def linesFrom (g : Grammar) (path : String) : (number : Nat) → List Rule → List Line
  | _, [] => []
  | number, rule :: rest => g.line ⟨path, number⟩ rule :: linesFrom g path (number + 1) rest

@[simp]
theorem rules_line (g : Grammar) (place : Location) (rule : Rule) :
    (g.line place rule).rules = [rule] := by
  simp [line, Line.rules, Function.comp_def]

@[simp]
theorem words_line (g : Grammar) (place : Location) (rule : Rule) :
    (g.line place rule).words = (rule.left ++ rule.right).map g.word := by
  simp [line, Line.words]

/-- The tokens of the line of a rule: those of its sides, with an equals sign between them. -/
theorem tokens_line (g : Grammar) (place : Location) (rule : Rule) : (g.line place rule).tokens =
    rule.left.map (fun x => (g.word x).token) ++
      .equals :: rule.right.map fun x => (g.word x).token := by
  simp [line, Line.tokens, Line.alternativeTokens, Function.comp_def]

theorem rules_linesFrom (rules : List Rule) :
    (g.linesFrom path number rules).flatMap Line.rules = rules := by
  induction rules generalizing number with
  | nil => rfl
  | cons rule rest ih => simp [linesFrom, ih]

theorem words_linesFrom (rules : List Rule) :
    (g.linesFrom path number rules).flatMap Line.words =
      (rules.flatMap fun rule => rule.left ++ rule.right).map g.word := by
  induction rules generalizing number with
  | nil => rfl
  | cons rule rest ih => simp [linesFrom, ih]

theorem isProper_line (hrule : rule ∈ g.rules) : (g.line place rule).IsProper := by
  have hover := g.wellFormed.rules_over rule hrule
  have hε : Symbol.epsilon ∉ g.nonterminals ++ g.terminals := by
    rw [List.mem_append, not_or]
    exact ⟨g.wellFormed.epsilon_not_mem_nonterminals, g.wellFormed.epsilon_not_mem_terminals⟩
  rw [Line.isProper_iff]
  refine ⟨⟨by simpa [line] using hover.left_ne_nil, fun h => ?_⟩, List.cons_ne_nil _ _, ?_⟩
  · exact hε (hover.left_declared _ (epsilon_mem_map_word_iff.1 h))
  · intro alternative halternative
    obtain rfl := List.mem_singleton.1 halternative
    refine ⟨by simpa using hover.right_ne_nil, fun h => ?_⟩
    rcases hover.right_declared with hright | hright
    · rw [hright, List.map_singleton, word_epsilon]
    · exact absurd (hright _ (epsilon_mem_map_word_iff.1 h)) hε

/-- No name is written in two ways. -/
theorem clashes_linesFrom : clashes (g.linesFrom path number g.rules) = [] := by
  rw [clashes, clashesAfter_eq_nil fun name => g.isTerminal ⟨name⟩, List.map_nil]
  · exact nofun
  · intro o ho
    obtain ⟨line, hline, ho⟩ := List.mem_flatMap.1 ho
    obtain ⟨word, hword, ho⟩ := List.mem_filterMap.1 ho
    obtain ⟨⟨name, quoted⟩, hname, rfl⟩ := Option.map_eq_some_iff.1 ho
    have hmem := List.mem_flatMap.2 ⟨line, hline, hword⟩
    rw [words_linesFrom] at hmem
    obtain ⟨x, hx, rfl⟩ := List.mem_map.1 hmem
    have hkind := (kind_word hx).2
    rcases word_cases hx with ⟨-, hword⟩ | ⟨-, hword⟩ | ⟨-, hword⟩ <;> rw [hword] at hname hkind <;>
      cases hname <;> exact hkind.symm

/-! ## Texts of sides and rules -/

/-- A symbol is written before a blank and the other symbols of its side. -/
theorem toList_sideText_cons (hside : side ≠ []) : (g.sideText (x :: side)).toList =
    (g.symbolText x).toList ++ ' ' :: (g.sideText side).toList := by
  obtain ⟨y, ys, rfl⟩ := List.exists_cons_of_ne_nil hside
  simp [sideText]

@[simp]
theorem sideText_singleton (x : Symbol) : g.sideText [x] = g.symbolText x := by
  simp [sideText]

theorem toList_ruleText (g : Grammar) (rule : Rule) : (g.ruleText rule).toList =
    (g.sideText rule.left).toList ++ ' ' :: '=' :: ' ' :: (g.sideText rule.right).toList := by
  simp [ruleText]

/-- The text of a side, and what may stand just after a bare word, is a way of writing the side's
words before the other tokens. -/
theorem renders_sideText (hside : side ≠ []) (hr : Token.Renders true tokens cs) :
    Token.Renders false (side.map (fun x => (g.word x).token) ++ tokens)
      ((g.sideText side).toList ++ cs) := by
  induction side with
  | nil => exact absurd rfl hside
  | cons x side ih =>
    cases side with
    | nil =>
      rw [sideText_singleton]
      exact .token (g.spells_word x) rfl (hr.of_afterBare _)
    | cons y side =>
      rw [toList_sideText_cons (List.cons_ne_nil _ _), List.append_assoc]
      exact .token (g.spells_word x) rfl (.blank (by decide) (ih (List.cons_ne_nil _ _)))

/-- The text of a rule is a way of writing its line. -/
theorem renders_ruleText (hrule : rule ∈ g.rules) :
    Token.Renders false (g.line place rule).tokens (g.ruleText rule).toList := by
  have hover := g.wellFormed.rules_over rule hrule
  have hright := renders_sideText (g := g) hover.right_ne_nil (.done true)
  rw [List.append_nil, List.append_nil] at hright
  have hequals : Token.Renders true (.equals :: rule.right.map fun x => (g.word x).token)
      (' ' :: '=' :: ' ' :: (g.sideText rule.right).toList) :=
    .blank (by decide) (.token .equals rfl (.blank (by decide) hright))
  have hline := renders_sideText (g := g) hover.left_ne_nil hequals
  rwa [toList_ruleText, tokens_line]

/-- A token that can be written ends with a character that is no blank. -/
theorem exists_append_of_spells {token : Token} {isBare : Bool} {spelling : List Char}
    (hs : Token.Spells token spelling isBare) (hw : token.IsWritable) :
    ∃ cs c, spelling = cs ++ [c] ∧ Text.isBlank c = false := by
  cases hs with
  | equals | bar | bareEpsilon => exact ⟨[], _, rfl, by decide⟩
  | quoted => exact ⟨_, _, rfl, by decide⟩
  | twoQuotes => exact ⟨['"'], _, rfl, by decide⟩
  | bare name =>
    obtain ⟨hne, -, hname⟩ := hw
    have hlast := List.dropLast_concat_getLast (l := name.toList) (by simpa using hne)
    refine ⟨_, _, hlast.symm, ?_⟩
    have hword := hname _ (List.getLast_mem (by simpa using hne))
    simp only [Token.isWordChar, Bool.and_eq_true, Bool.not_eq_true'] at hword
    exact hword.1

namespace Printable

variable (h : g.Printable)

include h

/-! ## What is written -/

theorem isWritable_word (hx : x ∈ g.usedSymbols) : (g.word x).token.IsWritable := by
  rcases word_cases hx with ⟨rfl, hword⟩ | ⟨hn, hword⟩ | ⟨ht, hword⟩
  · rw [hword]
    trivial
  · obtain ⟨hne, hname⟩ := h.nonterminals_writable x hn
    have hε : x.name ≠ Symbol.epsilon.name := fun hname =>
      ne_epsilon_of_mem_nonterminals hn (by cases x; cases hname; rfl)
    rw [hword]
    exact ⟨hne, hε, hname⟩
  · obtain ⟨hne, hquote, -⟩ := h.terminals_writable x ht
    rw [hword]
    exact ⟨hne, hquote⟩

/-- **The text of a rule** is a way of writing its line, whose tokens can be written. -/
theorem written_ruleText (hrule : rule ∈ g.rules) :
    Token.Written (g.line place rule).tokens (g.ruleText rule).toList := by
  refine ⟨renders_ruleText hrule, fun token htoken => ?_⟩
  rw [tokens_line, List.mem_append, List.mem_cons, List.mem_map, List.mem_map] at htoken
  rcases htoken with ⟨x, hx, rfl⟩ | rfl | ⟨x, hx, rfl⟩
  · exact h.isWritable_word (left_subset_usedSymbols hrule hx)
  · trivial
  · exact h.isWritable_word (right_subset_usedSymbols hrule hx)

theorem lineFeed_not_mem_symbolText (hx : x ∈ g.usedSymbols) :
    '\n' ∉ (g.symbolText x).toList := by
  have hs := g.spells_word x
  generalize (g.symbolText x).toList = cs at hs ⊢
  rcases word_cases hx with ⟨-, hword⟩ | ⟨hn, hword⟩ | ⟨ht, hword⟩ <;> rw [hword] at hs <;> cases hs
  case twoQuotes => decide
  case bare =>
    intro hfeed
    exact absurd ((h.nonterminals_writable x hn).2 _ hfeed) (by decide)
  case quoted => simpa using (h.terminals_writable x ht).2.2

theorem lineFeed_not_mem_sideText (hside : side ⊆ g.usedSymbols) :
    '\n' ∉ (g.sideText side).toList := by
  induction side with
  | nil => simp [sideText]
  | cons x side ih =>
    obtain ⟨hx, hside⟩ := List.cons_subset.1 hside
    by_cases hnil : side = []
    · rw [hnil, sideText_singleton]
      exact h.lineFeed_not_mem_symbolText hx
    · simp [toList_sideText_cons hnil, h.lineFeed_not_mem_symbolText hx, ih hside]

theorem exists_append_sideText (hne : side ≠ []) (hside : side ⊆ g.usedSymbols) :
    ∃ cs c, (g.sideText side).toList = cs ++ [c] ∧ Text.isBlank c = false := by
  induction side with
  | nil => exact absurd rfl hne
  | cons x side ih =>
    obtain ⟨hx, hside⟩ := List.cons_subset.1 hside
    by_cases hnil : side = []
    · rw [hnil, sideText_singleton]
      exact exists_append_of_spells (g.spells_word x) (h.isWritable_word hx)
    · obtain ⟨cs, c, hcs, hc⟩ := ih hnil hside
      exact ⟨(g.symbolText x).toList ++ ' ' :: cs, c, by simp [toList_sideText_cons hnil, hcs], hc⟩

/-- The text of a rule is one line: there is no line feed in it, and it does not end with a carriage
return. -/
theorem ruleText_oneLine (hrule : rule ∈ g.rules) :
    '\n' ∉ (g.ruleText rule).toList ∧ (g.ruleText rule).toList.getLast? ≠ some '\r' := by
  have hleft := h.lineFeed_not_mem_sideText (left_subset_usedSymbols hrule)
  have hright := h.lineFeed_not_mem_sideText (right_subset_usedSymbols hrule)
  obtain ⟨cs, c, hcs, hc⟩ :=
    h.exists_append_sideText (right_ne_nil hrule) (right_subset_usedSymbols hrule)
  refine ⟨by simp [toList_ruleText, hleft, hright], ?_⟩
  have hlast : (g.ruleText rule).toList.getLast? = some c := by
    simp [toList_ruleText, hcs, List.getLast?_append, List.getLast?_cons]
  rw [hlast]
  rintro ⟨⟩
  exact absurd hc (by decide)

/-! ## What is read -/

theorem readLine?_ruleText (hrule : rule ∈ g.rules) :
    Source.readLine? path number (some (g.ruleText rule)) =
      some (.ok (g.line ⟨path, number⟩ rule)) := by
  have hwritten : Token.Written (g.line ⟨path, number⟩ rule).tokens (g.ruleText rule).toList :=
    h.written_ruleText hrule
  have hline : Line.ofText ⟨path, number⟩ (g.ruleText rule) = .ok (g.line ⟨path, number⟩ rule) :=
    Line.ofText_eq_ok_iff.2 ⟨hwritten, rfl, isProper_line hrule⟩
  rw [Source.readLine?, if_pos (Line.isRuleText_of_written hwritten (by simp [Line.tokens])), hline]

/-- The texts of rules are read as their lines. -/
theorem readFrom_ruleTexts {rules : List Rule} (hrules : rules ⊆ g.rules) :
    Source.readFrom path number (rules.map fun rule => some (g.ruleText rule)) =
      (g.linesFrom path number rules).map .ok := by
  induction rules generalizing number with
  | nil => rfl
  | cons rule rest ih =>
    obtain ⟨hrule, hrest⟩ := List.cons_subset.1 hrules
    rw [List.map_cons, Source.readFrom, h.readLine?_ruleText hrule, ih hrest]
    rfl

/-- The lines of a grammar's rules make up the grammar. -/
theorem isGrammarOf : Source.IsGrammarOf g (g.linesFrom path number g.rules) := by
  have hwords : (g.linesFrom path number g.rules).flatMap Line.words = g.usedSymbols.map g.word :=
    words_linesFrom g.rules
  refine ⟨?_, ?_, ?_, (rules_linesFrom g.rules).symm⟩
  · have hstart := h.start_eq
    cases hrules : g.rules with
    | nil => simp [hrules] at hstart
    | cons rule rest => simpa [hrules, linesFrom, line, Option.map_map, Function.comp_def] using hstart
  · rw [hwords, map_symbol_filter fun x hx => (kind_word hx).1]
    exact h.nonterminals_eq
  · rw [hwords, map_symbol_filter fun x hx => (kind_word hx).2]
    exact h.terminals_eq

/-- **A grammar that can be written is read back** as it was. -/
theorem ofFile_fileText :
    (Source.ofFile path (some g.fileText.toUTF8)).result = .ok g := by
  have hone : ∀ text ∈ g.rules.map g.ruleText,
      '\n' ∉ text.toList ∧ text.toList.getLast? ≠ some '\r' := by
    intro text htext
    obtain ⟨rule, hrule, rfl⟩ := List.mem_map.1 htext
    exact h.ruleText_oneLine hrule
  have hlines : Text.readLines g.fileText.toUTF8 =
      g.rules.map fun rule => some (g.ruleText rule) := by
    simpa [fileText, Function.comp_def] using Text.readLines_join hone
  rw [Source.ofFile, hlines, Source.ofTexts_eq_ok_iff]
  exact ⟨_, h.readFrom_ruleTexts (List.Subset.refl _), clashes_linesFrom, h.isGrammarOf⟩

end Printable

end Grammar
end NormalGrammar
