import Mathlib
import NormalGrammar.Proofs.LineLayout
import NormalGrammar.Proofs.RuleTokens
import NormalGrammar.Proofs.WrittenRules

/-!
# How a grammar file is laid out

A file can be laid out in many ways: lines without rules stand between the others, lines have comments
and blanks, they end with or without a carriage return, and the alternatives of a left side share a line
or do not.  This file asks whether any of that matters to the grammar.  It does not, although a step may
move the lines after it to other numbers, and a left side that is written again is used again.

* A line holds rules, in words, whatever its layout (`Holds`), and a text holds those of its lines
  (`TextHolds`); which grammar is read from a file depends on them alone (`ofFile_eq_ok_iff`).
* A text may be cut wherever a line begins or ends (`textHolds_append`, `textHolds_line_append`), so that
  a step in one line leaves the others as they are.
* Every step of `Relaid` keeps the rules of a text (`Relaid.textHolds`), and so any number of steps keeps
  the grammar (`layout_does_not_matter`).
-/

namespace NormalGrammar
namespace Source

variable {cs cs' before line line' after first second : List Char} {css css' : List (List Char)}
  {rules : List (List Word × List Word)} {path text text' : String} {number : Nat} {g : Grammar}

/-! ## The rules in a text -/

/-- The rules that are written in one line of a file, in words: none, if the line has no tokens, and
otherwise those of the rule line that it is a way of writing. -/
inductive Holds : List Char → List (List Word × List Word) → Prop
  | nothing {cs : List Char} : Token.Written [] cs → Holds cs []
  | ruleLine {cs : List Char} {line : Line} :
      Token.Written line.tokens cs → line.IsProper → Holds cs line.wordRules

/-- The rules that are written in lines, one line after the other. -/
inductive LinesHold : List (List Char) → List (List Word × List Word) → Prop
  | nil : LinesHold [] []
  | cons {cs : List Char} {css : List (List Char)} {rules later : List (List Word × List Word)} :
      Holds cs rules → LinesHold css later → LinesHold (cs :: css) (rules ++ later)

/-- The rules that are written in a text. -/
def TextHolds (cs : List Char) (rules : List (List Word × List Word)) : Prop :=
  LinesHold (Text.cutLines '\n' '\r' cs) rules

theorem readLine?_eq_none_iff :
    readLine? path number (some text) = none ↔ Token.Written [] text.toList := by
  rw [← Line.isRuleText_eq_false_iff, readLine?]
  split <;> simp_all

/-- A rule line is read from a line just when the line is a way of writing it. -/
theorem readLine?_eq_ok_iff {line : Line} : readLine? path number (some text) = some (.ok line) ↔
    Token.Written line.tokens text.toList ∧ line.place = ⟨path, number⟩ ∧ line.IsProper := by
  rw [← Line.ofText_eq_ok_iff, readLine?]
  constructor
  · intro h
    split at h
    · exact Option.some.inj h
    · cases h
  · intro h
    have hwritten := (Line.ofText_eq_ok_iff.1 h).1
    rw [if_pos (Line.isRuleText_of_written hwritten (by simp [Line.tokens])), h]

/-- Rules are written in a line just when it is read as a rule line with these, or as nothing if there
are none, wherever it stands. -/
theorem holds_iff (path : String) (number : Nat) : Holds cs rules ↔ ∃ lines : List Line,
    (readLine? path number (some (String.ofList cs))).toList = lines.map .ok ∧
      (∀ line ∈ lines, line.IsProper) ∧ lines.flatMap Line.wordRules = rules := by
  constructor
  · intro h
    cases h with
    | nothing hwritten =>
      have hnone : readLine? path number (some (String.ofList cs)) = none :=
        readLine?_eq_none_iff.2 (by rwa [String.toList_ofList])
      exact ⟨[], by rw [hnone]; rfl, nofun, rfl⟩
    | @ruleLine line hwritten hproper =>
      -- the line is read where it stands now
      have hplaced := hproper.placed ⟨path, number⟩
      have hread : readLine? path number (some (String.ofList cs)) =
          some (.ok { line with place := ⟨path, number⟩ }) := by
        refine readLine?_eq_ok_iff.2 ⟨?_, rfl, hplaced⟩
        rw [String.toList_ofList]
        exact hwritten
      refine ⟨[{ line with place := ⟨path, number⟩ }], by rw [hread]; rfl, ?_, ?_⟩
      · exact List.forall_mem_singleton.2 hplaced
      · exact List.flatMap_singleton ..
  · rintro ⟨lines, hread, hproper, rfl⟩
    cases hline : readLine? path number (some (String.ofList cs)) with
    | none =>
      rw [hline] at hread
      obtain rfl := List.map_eq_nil_iff.1 hread.symm
      have hwritten := readLine?_eq_none_iff.1 hline
      rw [String.toList_ofList] at hwritten
      exact .nothing hwritten
    | some result =>
      rw [hline] at hread
      obtain ⟨line, rfl, rfl⟩ := List.map_eq_singleton_iff.1 hread.symm
      obtain ⟨hwritten, -, hproper⟩ := readLine?_eq_ok_iff.1 hline
      rw [String.toList_ofList] at hwritten
      rw [List.flatMap_singleton]
      exact .ruleLine hwritten hproper

theorem linesHold_cons_iff : LinesHold (cs :: css) rules ↔
    ∃ here later, rules = here ++ later ∧ Holds cs here ∧ LinesHold css later := by
  constructor
  · intro h
    cases h with
    | cons hline hlater => exact ⟨_, _, rfl, hline, hlater⟩
  · rintro ⟨here, later, rfl, hline, hlater⟩
    exact .cons hline hlater

/-- Rules are written in lines just when these are read as rule lines with them, wherever they stand. -/
theorem linesHold_iff : LinesHold css rules ↔ ∃ lines : List Line,
    readFrom path number (css.map fun cs => some (String.ofList cs)) = lines.map .ok ∧
      (∀ line ∈ lines, line.IsProper) ∧ lines.flatMap Line.wordRules = rules := by
  induction css generalizing number rules with
  | nil =>
    constructor
    · rintro ⟨⟩
      exact ⟨[], rfl, nofun, rfl⟩
    · rintro ⟨lines, hread, -, rfl⟩
      obtain rfl := List.map_eq_nil_iff.1 hread.symm
      exact .nil
  | cons cs css ih =>
    rw [linesHold_cons_iff, List.map_cons, readFrom]
    constructor
    · rintro ⟨here, later, rfl, hhere, hlater⟩
      obtain ⟨first, hfirst, hproper, rfl⟩ := (holds_iff path number).1 hhere
      obtain ⟨rest, hrest, hproper', rfl⟩ := (@ih _ (number + 1)).1 hlater
      refine ⟨first ++ rest, ?_, List.forall_mem_append.2 ⟨hproper, hproper'⟩, List.flatMap_append ..⟩
      rw [hfirst, hrest, List.map_append]
    · rintro ⟨lines, hread, hproper, rfl⟩
      obtain ⟨first, rest, rfl, hfirst, hrest⟩ := List.map_eq_append_iff.1 hread.symm
      rw [List.forall_mem_append] at hproper
      exact ⟨_, _, List.flatMap_append .., (holds_iff path number).2 ⟨first, hfirst.symm, hproper.1, rfl⟩,
        ih.2 ⟨rest, hrest.symm, hproper.2, rfl⟩⟩

/-- **A grammar is read from a file** just when rules that are written there make it up. -/
theorem ofFile_eq_ok_iff : (ofFile path (some text.toUTF8)).result = .ok g ↔
    ∃ lines : List Line, (∀ line ∈ lines, line.IsProper) ∧
      TextHolds text.toList (lines.flatMap Line.wordRules) ∧ clashes lines = [] ∧
        IsGrammarOf g lines := by
  rw [ofFile, ofTexts_eq_ok_iff, Text.readLines_toUTF8]
  constructor
  · rintro ⟨lines, hread, hclashes, hg⟩
    have hproper : ∀ line ∈ lines, line.IsProper := fun line hline =>
      isProper_of_readFrom hread hline
    exact ⟨lines, hproper, linesHold_iff.2 ⟨lines, hread, hproper, rfl⟩, hclashes, hg⟩
  · rintro ⟨lines, hproper, hholds, hclashes, hg⟩
    obtain ⟨lines', hread, hproper', hrules⟩ := linesHold_iff.1 hholds
    exact ⟨lines', hread, clashes_of_wordRules hproper' hrules.symm hclashes,
      hg.of_wordRules hproper hproper' hrules.symm⟩

/-! ## Parts of a text -/

/-- Whether a part of a text ends where a line ends. -/
def Complete (before : List Char) : Prop := before = [] ∨ before.getLast? = some '\n'

/-- Whether a line ends where a part of a text begins. -/
def AtLineEnd (after : List Char) : Prop :=
  after = [] ∨ ∃ rest, after = '\n' :: rest ∨ after = '\r' :: '\n' :: rest

theorem Holds.of_written {tokens : List Token} (h : Holds line rules)
    (hline : Token.Written tokens line) (hline' : Token.Written tokens line') :
    Holds line' rules := by
  cases h with
  | nothing hwritten =>
    obtain rfl := hwritten.unique hline
    exact .nothing hline'
  | ruleLine hwritten hproper =>
    obtain rfl := hwritten.unique hline
    exact .ruleLine hline' hproper

theorem Holds.exists_written (h : Holds line rules) : ∃ tokens, Token.Written tokens line := by
  cases h with
  | nothing hwritten => exact ⟨_, hwritten⟩
  | ruleLine hwritten _ => exact ⟨_, hwritten⟩

theorem Holds.respaced (h : Holds line rules) (hstep : Token.Respaced line line') :
    Holds line' rules := by
  obtain ⟨tokens, hwritten⟩ := h.exists_written
  exact h.of_written hwritten (hstep.written hwritten)

/-- A carriage return at the end of a line may come and go. -/
theorem holds_append_carriage_iff : Holds (cs ++ ['\r']) rules ↔ Holds cs rules := by
  have hiff : ∀ tokens, Token.Written tokens (cs ++ ['\r']) ↔ Token.Written tokens cs :=
    fun tokens => Token.written_append_blank_iff (by decide)
  constructor
  · intro h
    obtain ⟨tokens, hwritten⟩ := h.exists_written
    exact h.of_written hwritten ((hiff tokens).1 hwritten)
  · intro h
    obtain ⟨tokens, hwritten⟩ := h.exists_written
    exact h.of_written hwritten ((hiff tokens).2 hwritten)

theorem holds_nil_iff : Holds [] rules ↔ rules = [] := by
  constructor
  · intro h
    cases h with
    | nothing => rfl
    | @ruleLine line hwritten =>
      have htokens := hwritten.unique ⟨.done false, nofun⟩
      simp [Line.tokens] at htokens
  · rintro rfl
    exact .nothing ⟨.done false, nofun⟩

theorem linesHold_append_iff : LinesHold (css ++ css') rules ↔
    ∃ here later, rules = here ++ later ∧ LinesHold css here ∧ LinesHold css' later := by
  constructor
  · intro h
    induction css generalizing rules with
    | nil => exact ⟨[], rules, rfl, .nil, h⟩
    | cons cs css ih =>
      obtain ⟨here, rest, rfl, hline, hrest⟩ := linesHold_cons_iff.1 h
      obtain ⟨between, later, rfl, hbetween, hlater⟩ := ih hrest
      exact ⟨here ++ between, later, (List.append_assoc ..).symm, .cons hline hbetween, hlater⟩
  · rintro ⟨here, later, rfl, hhere, hlater⟩
    induction hhere with
    | nil => exact hlater
    | cons hline _ ih =>
      rw [List.append_assoc]
      exact .cons hline ih

theorem textHolds_nil_iff : TextHolds [] rules ↔ rules = [] := by
  constructor
  · intro h
    cases h
    rfl
  · rintro rfl
    exact .nil

theorem textHolds_feed_iff : TextHolds ('\n' :: cs) rules ↔ TextHolds cs rules := by
  rw [TextHolds, Text.cutLines_feed, linesHold_cons_iff]
  simp [holds_nil_iff, TextHolds]

theorem textHolds_carriage_feed_iff : TextHolds ('\r' :: '\n' :: cs) rules ↔ TextHolds cs rules := by
  rw [TextHolds, Text.cutLines_carriage_feed (by decide), linesHold_cons_iff]
  simp [holds_nil_iff, TextHolds]

/-- **A text may be cut where a line begins.** -/
theorem textHolds_append (hbefore : Complete before) : TextHolds (before ++ after) rules ↔
    ∃ here later, rules = here ++ later ∧ TextHolds before here ∧ TextHolds after later := by
  rcases hbefore with rfl | hlast
  · simp [textHolds_nil_iff]
  · rw [TextHolds, Text.cutLines_append_of_getLast? hlast, linesHold_append_iff]
    rfl

/-- **A text may be cut where a line ends.** -/
theorem textHolds_line_append (hline : '\n' ∉ line) (hafter : AtLineEnd after) :
    TextHolds (line ++ after) rules ↔
      ∃ here later, rules = here ++ later ∧ Holds line here ∧ TextHolds after later := by
  rcases hafter with rfl | ⟨rest, rfl | rfl⟩
  · simp only [List.append_nil, textHolds_nil_iff]
    by_cases hnil : line = []
    · simp [hnil, textHolds_nil_iff, holds_nil_iff]
    · rw [TextHolds, Text.cutLines_of_not_mem hline hnil, linesHold_cons_iff]
      have hnone : ∀ rules, LinesHold [] rules ↔ rules = [] := fun rules => textHolds_nil_iff
      simp [hnone]
  · simp only [textHolds_feed_iff]
    by_cases hlast : line.getLast? = some '\r'
    · obtain ⟨init, rfl⟩ := List.getLast?_eq_some_iff.1 hlast
      have hinit : '\n' ∉ init := fun h => hline (List.mem_append_left _ h)
      rw [List.append_assoc, List.singleton_append, TextHolds,
        Text.cutLines_append_carriage (by decide) hinit, linesHold_cons_iff]
      simp only [holds_append_carriage_iff, TextHolds]
    · rw [TextHolds, Text.cutLines_append_feed hline hlast, linesHold_cons_iff]
      rfl
  · simp only [textHolds_carriage_feed_iff]
    rw [TextHolds, Text.cutLines_append_carriage (by decide) hline, linesHold_cons_iff]
    rfl

theorem exists_lastLine (cs : List Char) :
    ∃ before line, cs = before ++ line ∧ Complete before ∧ '\n' ∉ line := by
  induction cs using List.reverseRecOn with
  | nil => exact ⟨[], [], rfl, .inl rfl, List.not_mem_nil⟩
  | append_singleton cs c ih =>
    by_cases hfeed : c = '\n'
    · exact ⟨cs ++ [c], [], (List.append_nil _).symm, .inr (by simp [hfeed]), List.not_mem_nil⟩
    · obtain ⟨before, line, rfl, hbefore, hline⟩ := ih
      refine ⟨before, line ++ [c], List.append_assoc .., hbefore, ?_⟩
      simp [hline, Ne.symm hfeed]

/-! ## Steps -/

/-- Whether a line has no rule to say: it is blank, or it starts with a comment after its blanks. -/
def IsUnruled (line : List Char) : Prop :=
  ∃ blanks rest, line = blanks ++ rest ∧ (∀ c ∈ blanks, Text.isBlank c = true) ∧
    (rest = [] ∨ rest.head? = some ';')

/-- The steps that change the layout of a text.  A line without a rule is put before or after another
line.  A line gets a comment or blanks.  A line feed gets a carriage return.  A rule line is parted at
one of its bars: its left side is written again in front of what follows the bar. -/
inductive Relaid : List Char → List Char → Prop
  | lineBefore {before line after : List Char} :
      Complete before → '\n' ∉ line → IsUnruled line →
      Relaid (before ++ after) (before ++ (line ++ '\n' :: after))
  | lineAfter {before line after : List Char} :
      AtLineEnd after → '\n' ∉ line → IsUnruled line →
      Relaid (before ++ after) (before ++ '\n' :: (line ++ after))
  | respaced {before line line' after : List Char} :
      Complete before → '\n' ∉ line → AtLineEnd after → Token.Respaced line line' →
      Relaid (before ++ (line ++ after)) (before ++ (line' ++ after))
  | carriage (before after : List Char) :
      Relaid (before ++ '\n' :: after) (before ++ '\r' :: '\n' :: after)
  | parted {before line first second after : List Char} {left right right' : List Token} :
      Complete before → '\n' ∉ line → AtLineEnd after →
      Token.Written (left ++ .equals :: (right ++ .bar :: right')) line →
      '\n' ∉ first → Token.Written (left ++ .equals :: right) first →
      '\n' ∉ second → Token.Written (left ++ .equals :: right') second →
      Relaid (before ++ (line ++ after)) (before ++ (first ++ '\n' :: (second ++ after)))

theorem IsUnruled.holds (h : IsUnruled line) : Holds line [] := by
  obtain ⟨blanks, rest, rfl, hblanks, hrest⟩ := h
  have hrest : Token.Renders false [] rest := by
    rcases hrest with rfl | hcomment
    · exact .done false
    · obtain ⟨text, rfl⟩ := List.head?_eq_some_iff.1 hcomment
      exact .comment false text
  refine .nothing ⟨?_, nofun⟩
  by_cases hnil : blanks = []
  · rwa [hnil]
  · exact hrest.blanks_append hblanks hnil

/-- A rule line says the same as two lines with its left side, one for the alternatives before one of
its bars, and one for those after it. -/
theorem exists_parted {line : Line} {left right right' : List Token} (hproper : line.IsProper)
    (htokens : line.tokens = left ++ .equals :: (right ++ .bar :: right')) :
    ∃ first second : Line, first.IsProper ∧ second.IsProper ∧
      first.tokens = left ++ .equals :: right ∧ second.tokens = left ++ .equals :: right' ∧
      line.wordRules = first.wordRules ++ second.wordRules := by
  obtain ⟨hleft, hne, halternatives⟩ := Line.isProper_iff.1 hproper
  have hequals : .equals ∉ line.left.map Word.token := by simp [Word.token_ne_equals]
  obtain ⟨rfl, -, hright⟩ := (List.append_cons_inj_of_notMem hequals
    (Line.equals_not_mem_alternativeTokens line.alternatives)).1 htokens
  -- the bar is one of those between the alternatives
  have hcut := Line.cutAtBars_alternativeTokens hne
  rw [hright, Line.cutAtBars_append_bar] at hcut
  obtain ⟨before, after, hsplit, hbefore, hafter⟩ := List.map_eq_append_iff.1 hcut.symm
  obtain ⟨hbeforeNe, rfl⟩ := Line.eq_alternativeTokens hbefore.symm
  obtain ⟨hafterNe, rfl⟩ := Line.eq_alternativeTokens hafter.symm
  rw [hsplit] at halternatives
  refine ⟨⟨line.left, before, line.place⟩, ⟨line.left, after, line.place⟩, ?_, ?_, rfl, rfl, ?_⟩
  · exact Line.isProper_iff.2 ⟨hleft, hbeforeNe, fun alternative h =>
      halternatives alternative (List.mem_append_left _ h)⟩
  · exact Line.isProper_iff.2 ⟨hleft, hafterNe, fun alternative h =>
      halternatives alternative (List.mem_append_right _ h)⟩
  · simp [Line.wordRules, hsplit]

theorem Holds.exists_parted {left right right' : List Token} (h : Holds line rules)
    (hline : Token.Written (left ++ .equals :: (right ++ .bar :: right')) line)
    (hfirst : Token.Written (left ++ .equals :: right) first)
    (hsecond : Token.Written (left ++ .equals :: right') second) :
    ∃ here later, rules = here ++ later ∧ Holds first here ∧ Holds second later := by
  cases h with
  | nothing hwritten =>
    have htokens := hwritten.unique hline
    simp at htokens
  | ruleLine hwritten hproper =>
    obtain ⟨line₁, line₂, hproper₁, hproper₂, htokens₁, htokens₂, hrules⟩ :=
      Source.exists_parted hproper (hwritten.unique hline)
    rw [← htokens₁] at hfirst
    rw [← htokens₂] at hsecond
    exact ⟨_, _, hrules, .ruleLine hfirst hproper₁, .ruleLine hsecond hproper₂⟩

/-- **A step keeps the rules of a text.** -/
theorem Relaid.textHolds (hstep : Relaid cs cs') (h : TextHolds cs rules) : TextHolds cs' rules := by
  cases hstep with
  | lineBefore hbefore hline hunruled =>
    obtain ⟨here, later, rfl, hhere, hlater⟩ := (textHolds_append hbefore).1 h
    refine (textHolds_append hbefore).2 ⟨here, later, rfl, hhere, ?_⟩
    refine (textHolds_line_append hline (.inr ⟨_, .inl rfl⟩)).2 ⟨[], later, rfl, hunruled.holds, ?_⟩
    exact textHolds_feed_iff.2 hlater
  | @lineAfter before line after hafter hline hunruled =>
    -- the line goes after the last one before it
    obtain ⟨before, last, rfl, hbefore, hlast⟩ := exists_lastLine before
    rw [List.append_assoc] at h ⊢
    obtain ⟨here, rest, rfl, hhere, hrest⟩ := (textHolds_append hbefore).1 h
    obtain ⟨middle, later, rfl, hmiddle, hlater⟩ := (textHolds_line_append hlast hafter).1 hrest
    refine (textHolds_append hbefore).2 ⟨here, _, rfl, hhere, ?_⟩
    refine (textHolds_line_append hlast (.inr ⟨_, .inl rfl⟩)).2 ⟨middle, later, rfl, hmiddle, ?_⟩
    rw [textHolds_feed_iff, textHolds_line_append hline hafter]
    exact ⟨[], later, rfl, hunruled.holds, hlater⟩
  | respaced hbefore hline hafter hrespaced =>
    obtain ⟨here, rest, rfl, hhere, hrest⟩ := (textHolds_append hbefore).1 h
    obtain ⟨middle, later, rfl, hmiddle, hlater⟩ := (textHolds_line_append hline hafter).1 hrest
    refine (textHolds_append hbefore).2 ⟨here, _, rfl, hhere, ?_⟩
    refine (textHolds_line_append (hrespaced.lineFeed_not_mem hline) hafter).2 ?_
    exact ⟨middle, later, rfl, hmiddle.respaced hrespaced, hlater⟩
  | carriage before after =>
    obtain ⟨before, last, rfl, hbefore, hlast⟩ := exists_lastLine before
    rw [List.append_assoc] at h ⊢
    obtain ⟨here, rest, rfl, hhere, hrest⟩ := (textHolds_append hbefore).1 h
    refine (textHolds_append hbefore).2 ⟨here, rest, rfl, hhere, ?_⟩
    rw [textHolds_line_append hlast (.inr ⟨_, .inl rfl⟩)] at hrest
    rw [textHolds_line_append hlast (.inr ⟨_, .inr rfl⟩)]
    simpa only [textHolds_feed_iff, textHolds_carriage_feed_iff] using hrest
  | parted hbefore hline hafter hwritten hfirst hfirstWritten hsecond hsecondWritten =>
    obtain ⟨here, rest, rfl, hhere, hrest⟩ := (textHolds_append hbefore).1 h
    obtain ⟨middle, later, rfl, hmiddle, hlater⟩ := (textHolds_line_append hline hafter).1 hrest
    obtain ⟨left, right, rfl, hleft, hright⟩ :=
      hmiddle.exists_parted hwritten hfirstWritten hsecondWritten
    refine (textHolds_append hbefore).2 ⟨here, _, rfl, hhere, ?_⟩
    refine (textHolds_line_append hfirst (.inr ⟨_, .inl rfl⟩)).2
      ⟨left, right ++ later, List.append_assoc .., hleft, ?_⟩
    rw [textHolds_feed_iff, textHolds_line_append hsecond hafter]
    exact ⟨right, later, rfl, hright, hlater⟩

theorem textHolds_of_steps (hsteps : Relation.ReflTransGen Relaid cs cs') (h : TextHolds cs rules) :
    TextHolds cs' rules := by
  induction hsteps with
  | refl => exact h
  | tail _ hstep ih => exact hstep.textHolds ih

/-- **The layout of a grammar file does not matter.**  If a grammar is read from a text, the same
grammar is read from every text that any number of steps makes of it. -/
theorem layout_does_not_matter {path text text' : String} {g : Grammar}
    (hsteps : Relation.ReflTransGen Relaid text.toList text'.toList)
    (hread : (ofFile path (some text.toUTF8)).result = .ok g) :
    (ofFile path (some text'.toUTF8)).result = .ok g := by
  obtain ⟨lines, hproper, hholds, hg⟩ := ofFile_eq_ok_iff.1 hread
  exact ofFile_eq_ok_iff.2 ⟨lines, hproper, textHolds_of_steps hsteps hholds, hg⟩

/-- A grammar in which one nonterminal may be rewritten to a terminal or to the other nonterminal. -/
def layered : Grammar where
  start := ⟨"S"⟩
  nonterminals := [⟨"S"⟩, ⟨"W"⟩]
  terminals := [⟨"b"⟩, ⟨"c"⟩]
  rules := [.ofHead ⟨"S"⟩ [⟨"W"⟩], .ofHead ⟨"S"⟩ [⟨"b"⟩], .ofHead ⟨"W"⟩ [⟨"c"⟩]]
  nodup_nonterminals := by decide
  nodup_terminals := by decide
  wellFormed := defect?_eq_none_iff.1 (by decide)

/-- A text of `layered` with no more than it needs. -/
def packed : String := "S=W|\"b\"\nW=\"c\""

/-- A text of `layered` that every kind of step has made longer. -/
def spread : String := ";\nS =W\nS=\"b\"\r\nW=\"c\";d\n\t"

/-- `layered` is read from the packed text, and from the spread one, which any step has made of it. -/
theorem spread_layout :
    Relation.ReflTransGen Relaid packed.toList spread.toList ∧
      (ofFile "packed.txt" (some packed.toUTF8)).result = .ok layered ∧
        (ofFile "packed.txt" (some spread.toUTF8)).result = .ok layered := by
  -- one step of each kind, and each goes on where the step before it ends
  have hparted : Relaid packed.toList "S=W\nS=\"b\"\nW=\"c\"".toList :=
    @Relaid.parted [] "S=W|\"b\"".toList "S=W".toList "S=\"b\"".toList "\nW=\"c\"".toList
      [.bare "S"] [.bare "W"] [.quoted "b"] (.inl rfl) (by decide) (.inr ⟨_, .inl rfl⟩)
      (Token.scan_eq_ok_iff.1 (by cbv)) (by decide) (Token.scan_eq_ok_iff.1 (by cbv)) (by decide)
      (Token.scan_eq_ok_iff.1 (by cbv))
  have hblank : Relaid _ "S =W\nS=\"b\"\nW=\"c\"".toList :=
    @Relaid.respaced [] "S=W".toList "S =W".toList "\nS=\"b\"\nW=\"c\"".toList
      (.inl rfl) (by decide) (.inr ⟨_, .inl rfl⟩)
      (@Token.Respaced.blanks ['S'] [' '] ['=', 'W'] [.bare "S"] [.equals, .bare "W"]
        (List.forall_mem_singleton.2 (by decide)) (Token.scan_eq_ok_iff.1 (by cbv))
        (Token.scan_eq_ok_iff.1 (by cbv)) (Token.scan_eq_ok_iff.1 (by cbv)))
  have hcarriage : Relaid _ "S =W\nS=\"b\"\r\nW=\"c\"".toList :=
    .carriage "S =W\nS=\"b\"".toList "W=\"c\"".toList
  have hcomment : Relaid _ "S =W\nS=\"b\"\r\nW=\"c\";d".toList :=
    @Relaid.respaced "S =W\nS=\"b\"\r\n".toList "W=\"c\"".toList "W=\"c\";d".toList []
      (.inr (by decide)) (by decide) (.inl rfl) (.comment ['d'] (by decide))
  have hbefore : Relaid _ ";\nS =W\nS=\"b\"\r\nW=\"c\";d".toList :=
    @Relaid.lineBefore [] [';'] "S =W\nS=\"b\"\r\nW=\"c\";d".toList (.inl rfl) (by decide)
      ⟨[], _, rfl, List.forall_mem_nil _, .inr rfl⟩
  have hafter : Relaid _ spread.toList :=
    @Relaid.lineAfter ";\nS =W\nS=\"b\"\r\nW=\"c\";d".toList ['\t'] [] (.inl rfl) (by decide)
      ⟨['\t'], [], rfl, List.forall_mem_singleton.2 (by decide), .inl rfl⟩
  have hsteps : Relation.ReflTransGen Relaid packed.toList spread.toList :=
    (((((Relation.ReflTransGen.single hparted).tail hblank).tail hcarriage).tail hcomment).tail
      hbefore).tail hafter
  have hread : (ofFile "packed.txt" (some packed.toUTF8)).result = .ok layered := by decide_cbv
  exact ⟨hsteps, hread, layout_does_not_matter hsteps hread⟩

end Source
end NormalGrammar
