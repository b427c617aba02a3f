import Mathlib.Data.Set.List
import NormalGrammar.Proofs.RuleLines

/-!
# Which tokens make up a rule line

A line is read from its own tokens and from no others.  This file asks the same question from the
side of the tokens: which of them are those of some line?  One would expect the answer to follow the
readers of a line, side by side and alternative by alternative; it needs only where the first equals
sign stands and where the bars cut (`IsRule`).

* The pieces between the bars are those into which a list is split (`cutAtBars_eq_splitOn`), and they
  hold neither bars nor anything else that is not there (`mem_of_mem_cutAtBars`).
* Tokens without equals signs and bars are the tokens of words (`exists_words`).
* So tokens are read just when they make up a rule line, and nothing of them is lost
  (`ofTokens_keeps_tokens`).
-/

namespace NormalGrammar

namespace Token

/-- Whether a token names a symbol: it is a bare or a quoted word. -/
def IsName : Token → Prop
  | .bare _ | .quoted _ => True
  | .equals | .bar | .epsilon => False

end Token

namespace Line

variable {tokens piece : List Token} {token : Token} {words : List Word} {line : Line}

/-- Whether tokens make up a rule line: names, then the only equals sign, and then alternatives with
bars between them, each of which has tokens, and the empty word only on its own. -/
def IsRule (tokens : List Token) : Prop :=
  ∃ left right, tokens = left ++ .equals :: right ∧
    (left ≠ [] ∧ ∀ token ∈ left, token.IsName) ∧ .equals ∉ right ∧
    ∀ piece ∈ right.splitOn .bar, piece ≠ [] ∧ (.epsilon ∈ piece → piece = [.epsilon])

/-! ## Pieces -/

/-- Cutting at the bars is splitting a list at its bars. -/
theorem cutAtBars_eq_splitOn (tokens : List Token) : cutAtBars tokens = tokens.splitOn .bar := by
  have hcons : ∀ (token : Token) (rest : List Token), (token :: rest).splitOn .bar =
      if (token == .bar) = true then [] :: rest.splitOn .bar
        else (rest.splitOn .bar).modifyHead (token :: ·) := by
    intro token rest
    rw [List.splitOn_eq_splitOnP, List.splitOn_eq_splitOnP]
    exact List.splitOnP_cons_eq_if_modifyHead token rest
  fun_induction cutAtBars tokens with
  | case1 => exact (List.splitOn_nil _).symm
  | case2 rest ih => rw [hcons, ih, if_pos (by simp)]
  | case3 token rest _ hcut => exact absurd hcut (cutAtBars_ne_nil rest)
  | case4 token rest hbar piece others hcut ih =>
    rw [hcons, ← ih, hcut, if_neg (by simpa using hbar), List.modifyHead_cons]

/-- What stands in a piece stands among the tokens, and is no bar. -/
theorem mem_of_mem_cutAtBars (hpiece : piece ∈ cutAtBars tokens) (ht : token ∈ piece) :
    token ∈ tokens ∧ token ≠ .bar := by
  fun_induction cutAtBars tokens generalizing piece with
  | case1 =>
    rw [List.mem_singleton.1 hpiece] at ht
    cases ht
  | case2 rest ih =>
    rcases List.mem_cons.1 hpiece with rfl | hpiece
    · cases ht
    · have hrest := ih hpiece ht
      exact ⟨List.mem_cons_of_mem _ hrest.1, hrest.2⟩
  | case3 token' rest _ hcut => exact absurd hcut (cutAtBars_ne_nil rest)
  | case4 token' rest hbar first others hcut ih =>
    have hlater : ∀ p ∈ first :: others, token ∈ p → token ∈ token' :: rest ∧ token ≠ .bar := by
      intro p hp ht
      have hrest := ih (hcut ▸ hp) ht
      exact ⟨List.mem_cons_of_mem _ hrest.1, hrest.2⟩
    rcases List.mem_cons.1 hpiece with rfl | hpiece
    · rcases List.mem_cons.1 ht with rfl | ht
      · exact ⟨List.mem_cons_self .., hbar⟩
      · exact hlater first (List.mem_cons_self ..) ht
    · exact hlater piece (List.mem_cons_of_mem _ hpiece) ht

/-! ## Words behind tokens -/

theorem exists_word (hequals : token ≠ .equals) (hbar : token ≠ .bar) :
    ∃ word : Word, word.token = token := by
  cases token with
  | equals => exact absurd rfl hequals
  | bar => exact absurd rfl hbar
  | epsilon => exact ⟨.epsilon, rfl⟩
  | bare name => exact ⟨.bare name, rfl⟩
  | quoted text => exact ⟨.quoted text, rfl⟩

/-- Tokens without equals signs and bars are the tokens of words. -/
theorem exists_words (h : ∀ token ∈ tokens, token ≠ .equals ∧ token ≠ .bar) :
    ∃ words : List Word, words.map Word.token = tokens := by
  have hrange : tokens ∈ Set.range (List.map Word.token) := by
    rw [Set.range_list_map]
    exact fun token ht => exists_word (h token ht).1 (h token ht).2
  exact hrange

/-- The pieces of tokens without equals signs are the tokens of alternatives. -/
theorem exists_alternatives (h : .equals ∉ tokens) : ∃ alternatives : List (List Word),
    alternatives.map (·.map Word.token) = cutAtBars tokens := by
  have hrange : cutAtBars tokens ∈ Set.range (List.map (List.map Word.token)) := by
    rw [Set.range_list_map]
    intro piece hpiece
    apply exists_words
    intro token ht
    have hmem := mem_of_mem_cutAtBars hpiece ht
    exact ⟨fun he => h (he ▸ hmem.1), hmem.2⟩
  exact hrange

theorem isName_token_iff {word : Word} : word.token.IsName ↔ word ≠ .epsilon := by
  cases word <;> simp [Word.token, Token.IsName]

theorem equals_not_mem_alternativeTokens (alternatives : List (List Word)) :
    .equals ∉ alternativeTokens alternatives := by
  have hwords : ∀ words : List Word, .equals ∉ words.map Word.token := by
    simp [Word.token_ne_equals]
  fun_induction alternativeTokens alternatives with
  | case1 => exact List.not_mem_nil
  | case2 alternative => exact hwords alternative
  | case3 alternative others _ ih => simp [hwords, ih]

/-- The tokens of words are the tokens of an alternative just when the words are one. -/
theorem isAlternative_iff_tokens : IsAlternative words ↔ words.map Word.token ≠ [] ∧
    (.epsilon ∈ words.map Word.token → words.map Word.token = [.epsilon]) := by
  have hsingle : words.map Word.token = [.epsilon] ↔ words = [Word.epsilon] := by
    rw [List.map_eq_singleton_iff]
    simp [Word.token_eq_epsilon_iff]
  rw [IsAlternative, Word.epsilon_mem_map_token_iff, hsingle, ne_eq, ne_eq, List.map_eq_nil_iff]

/-! ## Rule lines -/

theorem IsProper.isRule (h : line.IsProper) : IsRule line.tokens := by
  obtain ⟨⟨hleft, hε⟩, hne, halternatives⟩ := isProper_iff.1 h
  refine ⟨line.left.map Word.token, alternativeTokens line.alternatives, rfl, ⟨?_, ?_⟩,
    equals_not_mem_alternativeTokens _, ?_⟩
  · simpa using hleft
  · intro token ht
    obtain ⟨word, hword, rfl⟩ := List.mem_map.1 ht
    exact isName_token_iff.2 fun he => hε (he ▸ hword)
  · rw [← cutAtBars_eq_splitOn, cutAtBars_alternativeTokens hne]
    intro piece hpiece
    obtain ⟨alternative, halternative, rfl⟩ := List.mem_map.1 hpiece
    exact isAlternative_iff_tokens.1 (halternatives alternative halternative)

/-- Tokens that make up a rule line are the tokens of one, wherever it stands. -/
theorem IsRule.exists_line (h : IsRule tokens) (place : Location) :
    ∃ line : Line, line.tokens = tokens ∧ line.place = place ∧ line.IsProper := by
  obtain ⟨left, right, rfl, ⟨hleft, hnames⟩, hequals, hpieces⟩ := h
  rw [← cutAtBars_eq_splitOn] at hpieces
  -- a name is neither an equals sign nor a bar
  obtain ⟨words, rfl⟩ : ∃ words : List Word, words.map Word.token = left := by
    apply exists_words
    rintro token ht
    have hname := hnames token ht
    constructor <;> rintro rfl <;> exact hname
  obtain ⟨alternatives, halternatives⟩ := exists_alternatives hequals
  obtain ⟨hne, rfl⟩ := eq_alternativeTokens halternatives.symm
  refine ⟨⟨words, alternatives, place⟩, rfl, rfl, isProper_iff.2 ⟨⟨?_, ?_⟩, hne, ?_⟩⟩
  · simpa using hleft
  · intro hε
    exact hnames .epsilon (List.mem_map_of_mem hε)
  · intro alternative halternative
    apply isAlternative_iff_tokens.2
    apply hpieces
    rw [← halternatives]
    exact List.mem_map_of_mem halternative

/-- **Tokens are read as a line just when they make up a rule line**, and none of them is lost: they
are the tokens of the line that is read, and every rule line is read from its tokens. -/
theorem ofTokens_keeps_tokens (place : Location) (tokens : List Token) :
    ((∃ line, ofTokens place tokens = .ok line) ↔ IsRule tokens) ∧
      (∀ line, ofTokens place tokens = .ok line →
        line.tokens = tokens ∧ line.place = place ∧ line.IsProper) ∧
      ∀ line : Line, line.IsProper → ofTokens line.place line.tokens = .ok line := by
  have hread : ∀ line, ofTokens place tokens = .ok line →
      line.tokens = tokens ∧ line.place = place ∧ line.IsProper := by
    intro line h
    obtain ⟨htokens, hplace, hproper⟩ := ofTokens_eq_ok_iff.1 h
    exact ⟨htokens.symm, hplace, hproper⟩
  refine ⟨⟨?_, ?_⟩, hread, ?_⟩
  · rintro ⟨line, h⟩
    obtain ⟨rfl, -, hproper⟩ := hread line h
    exact hproper.isRule
  · intro h
    obtain ⟨line, htokens, hplace, hproper⟩ := h.exists_line place
    exact ⟨line, ofTokens_eq_ok_iff.2 ⟨htokens.symm, hplace, hproper⟩⟩
  · intro line hproper
    exact ofTokens_eq_ok_iff.2 ⟨rfl, rfl, hproper⟩

-- a bar at the end cuts off a piece without tokens
example : ofTokens ⟨"open.txt", 1⟩ [.bare "A", .equals, .bare "B", .bar] = .error .blankAlternative := by
  decide

/-- A line whose left side holds a terminal, and one of whose alternatives is the empty word. -/
def branching : Line where
  left := [.bare "A", .quoted "b"]
  alternatives := [[.epsilon], [.quoted "=", .bare "A"], [.quoted "|"]]
  place := ⟨"branching.txt", 3⟩

/-- The tokens of `branching` make up a rule line, and `branching` is read from them. -/
theorem branching_keeps_tokens : branching.IsProper ∧ IsRule branching.tokens ∧
    ofTokens ⟨"branching.txt", 3⟩ branching.tokens = .ok branching := by
  have hproper : branching.IsProper :=
    ⟨by decide, by decide, by decide, by decide, by decide⟩
  obtain ⟨hrule, hkept, hread⟩ := ofTokens_keeps_tokens branching.place branching.tokens
  have hline := hread branching hproper
  exact ⟨(hkept branching hline).2.2, hrule.1 ⟨branching, hline⟩, hline⟩

end Line
end NormalGrammar
