import NormalGrammar.Proofs.Scanning

/-!
# Reading rule lines back

The tokens of a line with the parts of a rule are read as this line, and nothing else is read as a
rule line (`Line.ofTokens_eq_ok_iff`).  Every level of a line has a statement of this form: words,
sides, alternatives and the line itself.  With the tokens below them, this says which texts are read
as which lines (`Line.ofText_eq_ok_iff`).
-/

namespace NormalGrammar

section Except

variable {α β ε : Type}

theorem bind_eq_ok_iff {r : Except ε α} {f : α → Except ε β} {b : β} :
    (r >>= f) = .ok b ↔ ∃ a, r = .ok a ∧ f a = .ok b := by
  cases r <;> simp [bind, Except.bind]

theorem mapError_eq_ok_iff {ε' : Type} {report : ε → ε'} {r : Except ε α} {a : α} :
    r.mapError report = .ok a ↔ r = .ok a := by
  cases r <;> constructor <;> intro h <;> cases h <;> rfl

/-- If single values are read from exactly what they are written as, so are lists of values. -/
theorem mapM_eq_ok_iff {read : α → Except ε β} {write : β → α} {P : β → Prop}
    (h : ∀ a b, read a = .ok b ↔ a = write b ∧ P b) {as : List α} {bs : List β} :
    as.mapM read = .ok bs ↔ as = bs.map write ∧ ∀ b ∈ bs, P b := by
  induction as generalizing bs with
  | nil => cases bs <;> simp [pure, Except.pure]
  | cons a as ih =>
    simp only [List.mapM_cons, bind_eq_ok_iff, pure, Except.pure, Except.ok.injEq, h, ih]
    constructor
    · rintro ⟨b, ⟨rfl, hb⟩, bs, ⟨rfl, hbs⟩, rfl⟩
      exact ⟨rfl, List.forall_mem_cons.2 ⟨hb, hbs⟩⟩
    · rintro ⟨hmap, hall⟩
      cases bs with
      | nil => cases hmap
      | cons b bs =>
        obtain ⟨rfl, rfl⟩ := List.cons.inj hmap
        obtain ⟨hb, hbs⟩ := List.forall_mem_cons.1 hall
        exact ⟨b, ⟨rfl, hb⟩, bs, ⟨rfl, hbs⟩, rfl⟩

end Except

/-! ## Words -/

namespace Word

variable {word : Word} {words : List Word}

theorem ofToken_eq_ok_iff {token : Token} : ofToken token = .ok word ↔ token = word.token := by
  cases token <;> cases word <;> simp [ofToken, Word.token]

theorem mapM_ofToken_eq_ok_iff {tokens : List Token} :
    tokens.mapM ofToken = .ok words ↔ tokens = words.map token := by
  have h : ∀ t w, ofToken t = .ok w ↔ t = w.token ∧ True := by simp [ofToken_eq_ok_iff]
  simpa using mapM_eq_ok_iff h

theorem token_ne_equals (word : Word) : word.token ≠ .equals := by
  cases word <;> nofun

theorem token_ne_bar (word : Word) : word.token ≠ .bar := by
  cases word <;> nofun

theorem token_eq_epsilon_iff : word.token = .epsilon ↔ word = .epsilon := by
  cases word <;> simp [token]

theorem epsilon_mem_map_token_iff : Token.epsilon ∈ words.map token ↔ epsilon ∈ words := by
  simp [token_eq_epsilon_iff]

end Word

namespace Line

variable {tokens piece rest : List Token} {token : Token} {word : Word}
  {alternative left words : List Word} {alternatives : List (List Word)} {line : Line}
  {place : Location} {text : String}

/-! ## The left side -/

/-- A word of a left side is read from its token, unless it is the empty word. -/
theorem readLeftWord_eq_ok_iff :
    readLeftWord token = .ok word ↔ token = word.token ∧ word ≠ .epsilon := by
  cases token <;> cases word <;> simp [readLeftWord, Word.ofToken, Word.token]

/-- **A left side** is read from its tokens, if it has words and the empty word is not among them. -/
theorem readLeft_eq_ok_iff : readLeft tokens = .ok left ↔
    tokens = left.map Word.token ∧ left ≠ [] ∧ Word.epsilon ∉ left := by
  unfold readLeft
  split
  · rename_i hnil
    subst hnil
    simp only [reduceCtorEq, false_iff, not_and]
    intro h hne
    exact absurd (List.map_eq_nil_iff.1 h.symm) hne
  · rename_i hnil
    rw [mapM_eq_ok_iff fun _ _ => readLeftWord_eq_ok_iff]
    constructor
    · rintro ⟨rfl, hall⟩
      exact ⟨rfl, by simpa using hnil, fun hε => hall _ hε rfl⟩
    · rintro ⟨rfl, -, hε⟩
      exact ⟨rfl, fun word hword h => hε (h ▸ hword)⟩

/-! ## Alternatives -/

/-- The words of an alternative: there are some, and the empty word stands alone. -/
def IsAlternative (alternative : List Word) : Prop :=
  alternative ≠ [] ∧ (Word.epsilon ∈ alternative → alternative = [Word.epsilon])

/-- **An alternative** is read from its tokens. -/
theorem readAlternative_eq_ok_iff : readAlternative tokens = .ok alternative ↔
    tokens = alternative.map Word.token ∧ IsAlternative alternative := by
  unfold readAlternative
  split
  · rename_i hnil
    subst hnil
    simp only [reduceCtorEq, false_iff, not_and]
    intro h halternative
    exact halternative.1 (List.map_eq_nil_iff.1 h.symm)
  · rename_i hnil
    split
    · rename_i hmixed
      simp only [reduceCtorEq, false_iff, not_and]
      rintro rfl halternative
      rw [Word.epsilon_mem_map_token_iff, List.length_map] at hmixed
      rw [halternative.2 hmixed.2] at hmixed
      exact absurd hmixed.1 (by decide)
    · rename_i hmixed
      rw [Word.mapM_ofToken_eq_ok_iff]
      constructor
      · rintro rfl
        refine ⟨rfl, by simpa using hnil, fun hε => ?_⟩
        rw [Word.epsilon_mem_map_token_iff, List.length_map] at hmixed
        match alternative, hε with
        | [word], hε => rw [List.mem_singleton.1 hε]
        | _ :: _ :: _, hε => exact absurd ⟨by simp, hε⟩ hmixed
      · exact And.left

theorem cutAtBars_ne_nil (tokens : List Token) : cutAtBars tokens ≠ [] := by
  fun_cases cutAtBars tokens <;> nofun

theorem cutAtBars_append_bar (first second : List Token) :
    cutAtBars (first ++ .bar :: second) = cutAtBars first ++ cutAtBars second := by
  fun_induction cutAtBars first with
  | case1 => simp [cutAtBars]
  | case2 rest ih => rw [List.cons_append, cutAtBars, if_pos rfl, ih, List.cons_append]
  | case3 token rest _ hcut => exact absurd hcut (cutAtBars_ne_nil rest)
  | case4 token rest hbar piece others hcut ih =>
    rw [List.cons_append, cutAtBars, if_neg hbar, ih, hcut]
    rfl

theorem cutAtBars_eq_self (hpiece : .bar ∉ piece) : cutAtBars piece = [piece] := by
  induction piece with
  | nil => rfl
  | cons token piece ih =>
    rw [List.mem_cons, not_or] at hpiece
    rw [cutAtBars, if_neg (Ne.symm hpiece.1), ih hpiece.2]

theorem bar_not_mem_map_token (words : List Word) : .bar ∉ words.map Word.token := by
  simp [Word.token_ne_bar]

/-- The tokens of alternatives are cut into those of each. -/
theorem cutAtBars_alternativeTokens (hne : alternatives ≠ []) :
    cutAtBars (alternativeTokens alternatives) = alternatives.map (·.map Word.token) := by
  fun_induction alternativeTokens alternatives with
  | case1 => exact absurd rfl hne
  | case2 alternative => exact cutAtBars_eq_self (bar_not_mem_map_token _)
  | case3 alternative others hothers ih =>
    rw [cutAtBars_append_bar, cutAtBars_eq_self (bar_not_mem_map_token _),
      ih (by simpa using hothers), List.map_cons, List.singleton_append]

theorem alternativeTokens_cons_cons :
    alternativeTokens ((word :: alternative) :: alternatives) =
      word.token :: alternativeTokens (alternative :: alternatives) := by
  cases alternatives <;> rfl

/-- Tokens that are cut into those of alternatives are the tokens of these. -/
theorem eq_alternativeTokens (h : cutAtBars tokens = alternatives.map (·.map Word.token)) :
    alternatives ≠ [] ∧ tokens = alternativeTokens alternatives := by
  fun_induction cutAtBars tokens generalizing alternatives with
  | case1 =>
    obtain ⟨alternative, rfl, hnil⟩ := List.map_eq_singleton_iff.1 h.symm
    rw [List.map_eq_nil_iff.1 hnil]
    exact ⟨List.cons_ne_nil _ _, rfl⟩
  | case2 rest ih =>
    obtain ⟨alternative, others, rfl, hnil, hothers⟩ := List.map_eq_cons_iff.1 h.symm
    obtain ⟨hne, rfl⟩ := ih hothers.symm
    rw [List.map_eq_nil_iff.1 hnil]
    cases others with
    | nil => exact absurd rfl hne
    | cons => exact ⟨List.cons_ne_nil _ _, rfl⟩
  | case3 token rest _ hcut => exact absurd hcut (cutAtBars_ne_nil rest)
  | case4 token rest _ piece others hcut ih =>
    obtain ⟨alternative, alternatives, rfl, hpiece, hothers⟩ := List.map_eq_cons_iff.1 h.symm
    obtain ⟨word, alternative, rfl, rfl, rfl⟩ := List.map_eq_cons_iff.1 hpiece
    have hrest : cutAtBars rest = (alternative :: alternatives).map (·.map Word.token) := by
      simp [hcut, hothers]
    obtain ⟨-, htokens⟩ := ih hrest
    exact ⟨List.cons_ne_nil _ _, by rw [alternativeTokens_cons_cons, ← htokens]⟩

/-- **Alternatives** are read from their tokens with bars between them. -/
theorem readAlternatives_eq_ok_iff : readAlternatives tokens = .ok alternatives ↔
    alternatives ≠ [] ∧ tokens = alternativeTokens alternatives ∧
      ∀ alternative ∈ alternatives, IsAlternative alternative := by
  unfold readAlternatives
  rw [mapM_eq_ok_iff fun _ _ => readAlternative_eq_ok_iff, ← and_assoc]
  refine and_congr_left fun _ => ⟨eq_alternativeTokens, ?_⟩
  rintro ⟨hne, rfl⟩
  exact cutAtBars_alternativeTokens hne

/-! ## Lines -/

/-- The parts of a rule line, in terms of its sides. -/
theorem isProper_iff : line.IsProper ↔ (line.left ≠ [] ∧ Word.epsilon ∉ line.left) ∧
    line.alternatives ≠ [] ∧ ∀ alternative ∈ line.alternatives, IsAlternative alternative :=
  ⟨fun h => ⟨⟨h.left_ne_nil, h.epsilon_not_mem_left⟩, h.alternatives_ne_nil,
      fun a ha => ⟨h.alternative_ne_nil a ha, h.epsilon_alone a ha⟩⟩,
    fun ⟨⟨hleft, hε⟩, hne, hall⟩ =>
      ⟨hleft, hε, hne, fun a ha => (hall a ha).1, fun a ha => (hall a ha).2⟩⟩

theorem IsProper.placed (h : line.IsProper) (place : Location) :
    ({ line with place } : Line).IsProper := by
  rw [isProper_iff] at h ⊢
  exact h

/-- Tokens of words, then an equals sign: that is where the left side ends. -/
theorem takeWhile_map_token (words : List Word) (rest : List Token) :
    (words.map Word.token ++ .equals :: rest).takeWhile (· ≠ .equals) = words.map Word.token ∧
      (words.map Word.token ++ .equals :: rest).dropWhile (· ≠ .equals) = .equals :: rest := by
  have hall : ∀ token ∈ words.map Word.token, decide (token ≠ .equals) = true := by
    simp [Word.token_ne_equals]
  constructor
  · rw [List.takeWhile_append_of_pos hall, List.takeWhile_cons_of_neg (by simp), List.append_nil]
  · rw [List.dropWhile_append_of_pos hall, List.dropWhile_cons_of_neg (by simp)]

theorem token_mem_alternativeTokens (hword : word ∈ alternatives.flatten) :
    word.token ∈ alternativeTokens alternatives := by
  fun_induction alternativeTokens alternatives with
  | case1 => cases hword
  | case2 alternative => exact List.mem_map_of_mem (by simpa using hword)
  | case3 alternative others _ ih =>
    rw [List.flatten_cons, List.mem_append] at hword
    rcases hword with hword | hword
    · exact List.mem_append_left _ (List.mem_map_of_mem hword)
    · exact List.mem_append_right _ (List.mem_cons_of_mem _ (ih hword))

theorem token_mem_tokens (hword : word ∈ line.words) : word.token ∈ line.tokens := by
  rcases List.mem_append.1 hword with hword | hword
  · exact List.mem_append_left _ (List.mem_map_of_mem hword)
  · exact List.mem_append_right _ (List.mem_cons_of_mem _ (token_mem_alternativeTokens hword))

/-- **A rule line** is read from its tokens, if it has the parts of one, and from nothing else. -/
theorem ofTokens_eq_ok_iff : ofTokens place tokens = .ok line ↔
    tokens = line.tokens ∧ line.place = place ∧ line.IsProper := by
  rw [isProper_iff]
  unfold ofTokens
  constructor
  · intro h
    split at h
    · cases h
    · have hstop := List.head?_dropWhile_not (fun t : Token => decide (t ≠ .equals)) tokens
      have hsplit := @List.takeWhile_append_dropWhile _ (fun t : Token => decide (t ≠ .equals)) tokens
      split at h
      · cases h
      · rename_i token right hright
        rw [hright] at hstop hsplit
        obtain rfl : token = .equals := by simpa using hstop
        obtain ⟨left, hleft, h⟩ := bind_eq_ok_iff.1 h
        obtain ⟨alternatives, halternatives, h⟩ := bind_eq_ok_iff.1 h
        obtain rfl := Except.ok.inj h
        obtain ⟨htokens, hsides⟩ := readLeft_eq_ok_iff.1 hleft
        obtain ⟨hne, rfl, hall⟩ := readAlternatives_eq_ok_iff.1 halternatives
        rw [htokens] at hsplit
        exact ⟨hsplit.symm, rfl, hsides, hne, hall⟩
  · rintro ⟨rfl, rfl, hleft, hne, hall⟩
    obtain ⟨htake, hdrop⟩ := takeWhile_map_token line.left (alternativeTokens line.alternatives)
    rw [if_neg (by simp [tokens]), tokens, htake, hdrop]
    have hl : readLeft (line.left.map Word.token) = .ok line.left := readLeft_eq_ok_iff.2 ⟨rfl, hleft⟩
    have ha : readAlternatives (alternativeTokens line.alternatives) = .ok line.alternatives :=
      readAlternatives_eq_ok_iff.2 ⟨hne, rfl, hall⟩
    simp only [hl, ha]
    rfl

/-- A token that can be written starts with a character that is no blank and starts no comment. -/
theorem exists_cons_of_spells {isBare : Bool} {spelling : List Char}
    (hs : Token.Spells token spelling isBare) (hw : token.IsWritable) :
    ∃ c cs, spelling = c :: cs ∧ Text.isBlank c = false ∧ c ≠ ';' := by
  cases hs with
  | equals | bar | quoted | twoQuotes | bareEpsilon => exact ⟨_, _, rfl, by decide, by decide⟩
  | bare name =>
    obtain ⟨hne, -, hname⟩ := hw
    obtain ⟨c, cs, hc⟩ := List.exists_cons_of_ne_nil (l := name.toList) (by simpa using hne)
    have hword : Token.isWordChar c = true := hname c (by simp [hc])
    refine ⟨c, cs, hc, ?_, ?_⟩
    · simp only [Token.isWordChar, Bool.and_eq_true, Bool.not_eq_true'] at hword
      exact hword.1
    · rintro rfl
      exact absurd hword (by decide)

theorem dropWhile_isBlank_of_renders {afterBare : Bool} {cs : List Char}
    (hr : Token.Renders afterBare tokens cs) (hw : ∀ token ∈ tokens, token.IsWritable)
    (hne : tokens ≠ []) : ∃ c rest, cs.dropWhile Text.isBlank = c :: rest ∧ c ≠ ';' := by
  induction hr with
  | done | comment => exact absurd rfl hne
  | blank hc _ ih =>
    rw [List.dropWhile_cons_of_pos hc]
    exact ih hw hne
  | token hs _ _ _ =>
    obtain ⟨c, cs, rfl, hblank, hc⟩ := exists_cons_of_spells hs (hw _ (List.mem_cons_self ..))
    rw [List.cons_append, List.dropWhile_cons_of_neg (by simp [hblank])]
    exact ⟨c, _, rfl, hc⟩

theorem isRuleText_of_written (hwritten : Token.Written tokens text.toList) (hne : tokens ≠ []) :
    isRuleText text = true := by
  obtain ⟨c, rest, hdrop, hc⟩ := dropWhile_isBlank_of_renders hwritten.1 hwritten.2 hne
  rw [isRuleText, hdrop]
  simpa using hc

/-- **A text is not meant as a rule** just when it is a way of writing no tokens. -/
theorem isRuleText_eq_false_iff : isRuleText text = false ↔ Token.Written [] text.toList := by
  unfold isRuleText
  rw [← Token.scan_eq_ok_iff]
  generalize text.toList = cs
  induction cs with
  | nil => simp
  | cons c cs ih =>
    by_cases hblank : Text.isBlank c = true
    · rw [List.dropWhile_cons_of_pos hblank, Token.scan_blank hblank]
      exact ih
    · rw [List.dropWhile_cons_of_neg hblank]
      by_cases hcomment : c = ';'
      · simp [hcomment]
      · have htokens : Token.scan (c :: cs) ≠ .ok [] := by
          intro h
          cases (Token.written_of_scan h).1 with
          | comment => exact hcomment rfl
          | blank hc => exact hblank hc
        simpa [hcomment] using htokens

/-- **A text** is read as a line just when it is a way of writing it. -/
theorem ofText_eq_ok_iff : ofText place text = .ok line ↔
    Token.Written line.tokens text.toList ∧ line.place = place ∧ line.IsProper := by
  rw [ofText, mapError_eq_ok_iff, bind_eq_ok_iff]
  simp only [Token.scan_eq_ok_iff, ofTokens_eq_ok_iff]
  constructor
  · rintro ⟨_, hwritten, rfl, hline⟩
    exact ⟨hwritten, hline⟩
  · rintro ⟨hwritten, hline⟩
    exact ⟨_, hwritten, rfl, hline⟩

end Line
end NormalGrammar
