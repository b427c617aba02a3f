import Mathlib
import NormalGrammar.Proofs.OpenQuotes
import NormalGrammar.Proofs.Reading
import NormalGrammar.Proofs.RuleTokens

/-!
# What is reported of a broken file

A file is read line by line, and lines that hold no rule are passed over while the lines are counted.
This file asks what is said of a file with broken lines, and whether the reader ever has to blame
itself.

* What is reported of the lines is what is reported of each, numbered from one before any line is
  passed over (`problems_readFrom`).
* A text that is meant as a rule has tokens (`isRuleText_eq_false_iff`), and between bars there are no
  bars, so what is said of a line concerns the line and not the reader (`isOfLine_of_ofText`).
* So a file with broken lines is answered with one problem for each of them and with nothing else, and
  no file at all meets a problem of the reader (`broken_lines_reported`).
-/

namespace NormalGrammar

/-- A problem that blames the reader, and not the file. -/
def SourceError.IsInternal (e : SourceError) : Prop := e = .noTokens ∨ e = .strayBar

/-- A problem of one line. -/
def SourceError.IsOfLine : SourceError → Prop
  | .noEquals | .strayEquals | .noLeftSide | .emptyWordOnLeft | .blankAlternative
  | .emptyWordAmongOthers | .openQuote => True
  | _ => False

/-- A problem of one line is no problem of the reader. -/
theorem SourceError.IsOfLine.not_isInternal {e : SourceError} (h : e.IsOfLine) : ¬ e.IsInternal := by
  rintro (rfl | rfl) <;> exact h

section Except

variable {α β ε ε' : Type}

theorem bind_eq_error_iff {r : Except ε α} {f : α → Except ε β} {e : ε} :
    (r >>= f) = .error e ↔ r = .error e ∨ ∃ a, r = .ok a ∧ f a = .error e := by
  cases r <;> simp [bind, Except.bind]

theorem mapError_eq_error_iff {r : Except ε α} {f : ε → ε'} {e' : ε'} :
    r.mapError f = .error e' ↔ ∃ e, r = .error e ∧ f e = e' := by
  cases r <;> simp [Except.mapError]

/-- If a list cannot be read, one of its elements cannot. -/
theorem exists_of_mapM_eq_error {read : α → Except ε β} {as : List α} {e : ε}
    (h : as.mapM read = .error e) : ∃ a ∈ as, read a = .error e := by
  induction as with
  | nil => cases h
  | cons a as ih =>
    rw [List.mapM_cons] at h
    rcases bind_eq_error_iff.1 h with h | ⟨b, -, h⟩
    · exact ⟨a, List.mem_cons_self .., h⟩
    · rcases bind_eq_error_iff.1 h with h | ⟨bs, -, h⟩
      · obtain ⟨a', ha', he⟩ := ih h
        exact ⟨a', List.mem_cons_of_mem _ ha', he⟩
      · cases h

end Except

/-! ## Problems of lines -/

namespace Line

open SourceError

variable {tokens : List Token} {token : Token} {e : SourceError} {place : Location} {text : String}
  {p : Problem}

theorem isOfLine_of_readLeftWord (h : readLeftWord token = .error e) : e.IsOfLine := by
  cases token <;> cases h <;> trivial

theorem isOfLine_of_readLeft (h : readLeft tokens = .error e) : e.IsOfLine := by
  unfold readLeft at h
  split at h
  · cases h
    trivial
  · obtain ⟨token, -, ht⟩ := exists_of_mapM_eq_error h
    exact isOfLine_of_readLeftWord ht

/-- What is wrong with a word concerns its line, unless the word is a bar. -/
theorem isOfLine_of_ofToken (hbar : token ≠ .bar) (h : Word.ofToken token = .error e) :
    e.IsOfLine := by
  cases token with
  | bar => exact absurd rfl hbar
  | equals =>
    cases h
    trivial
  | epsilon | bare | quoted => cases h

theorem isOfLine_of_readAlternative (hbar : ∀ token ∈ tokens, token ≠ .bar)
    (h : readAlternative tokens = .error e) : e.IsOfLine := by
  unfold readAlternative at h
  split at h
  · cases h
    trivial
  · split at h
    · cases h
      trivial
    · obtain ⟨token, ht, he⟩ := exists_of_mapM_eq_error h
      exact isOfLine_of_ofToken (hbar token ht) he

theorem isOfLine_of_ofTokens (hne : tokens ≠ []) (h : ofTokens place tokens = .error e) :
    e.IsOfLine := by
  rw [ofTokens, if_neg hne] at h
  split at h
  · cases h
    trivial
  · rename_i right _
    rcases bind_eq_error_iff.1 h with h | ⟨left, -, h⟩
    · exact isOfLine_of_readLeft h
    · rcases bind_eq_error_iff.1 h with h | ⟨alternatives, -, h⟩
      · -- the alternatives are what the bars leave
        obtain ⟨piece, hpiece, he⟩ := exists_of_mapM_eq_error h
        exact isOfLine_of_readAlternative (fun token ht => (mem_of_mem_cutAtBars hpiece ht).2) he
      · cases h

/-- A problem of a text is found in its tokens, and where the text stands. -/
theorem ofText_eq_error_iff : ofText place text = .error p ↔
    p.place = place ∧ (Token.scan text.toList >>= ofTokens place) = .error p.cause := by
  rw [ofText, mapError_eq_error_iff]
  constructor
  · rintro ⟨e, he, rfl⟩
    exact ⟨rfl, he⟩
  · rintro ⟨rfl, he⟩
    exact ⟨p.cause, he, rfl⟩

/-- **What is wrong with a text that is meant as a rule** concerns its line. -/
theorem isOfLine_of_ofText (hrule : isRuleText text = true) (h : ofText place text = .error p) :
    p.cause.IsOfLine := by
  obtain ⟨-, h⟩ := ofText_eq_error_iff.1 h
  rcases bind_eq_error_iff.1 h with h | ⟨tokens, htokens, h⟩
  · rw [(Token.scan_eq_error_iff.1 h).2]
    trivial
  · apply isOfLine_of_ofTokens _ h
    rintro rfl
    rw [isRuleText_eq_false_iff.2 (Token.scan_eq_ok_iff.1 htokens)] at hrule
    cases hrule

end Line

/-! ## Problems of files -/

namespace Source

variable {path : String} {number : Nat} {text : Option String} {texts : List (Option String)}
  {lines : List Line} {p : Problem} {ps : List Problem}

/-- What is reported of line `number` of a file: if it cannot be decoded, the file cannot be read; if
it is meant as a rule and is none, it is the line that is at fault; and otherwise nothing. -/
def report? (path : String) (number : Nat) : Option String → Option Problem
  | none => some ⟨⟨path, 0⟩, .unreadable .invalidText⟩
  | some text =>
    if Line.isRuleText text then
      match Line.ofText ⟨path, number⟩ text with
      | .error problem => some ⟨⟨path, number⟩, problem.cause⟩
      | .ok _ => none
    else
      none

theorem problems_readLine? (path : String) (number : Nat) (text : Option String) :
    problems (readLine? path number text).toList = (report? path number text).toList := by
  cases text with
  | none => rfl
  | some text =>
    rw [readLine?, report?]
    by_cases hrule : Line.isRuleText text = true
    · rw [if_pos hrule, if_pos hrule]
      cases hread : Line.ofText ⟨path, number⟩ text with
      | ok line => rfl
      | error p =>
        obtain ⟨hplace, -⟩ := Line.ofText_eq_error_iff.1 hread
        simp only [← hplace]
        rfl
    · rw [if_neg hrule, if_neg hrule]
      rfl

/-- **The problems of lines** are those that are reported of each line, whatever its number. -/
theorem problems_readFrom (path : String) (number : Nat) (texts : List (Option String)) :
    problems (readFrom path number texts) =
      (texts.zipIdx number).filterMap fun line => report? path line.2 line.1 := by
  induction texts generalizing number with
  | nil => rfl
  | cons text rest ih =>
    have hfirst := problems_readLine? path number text
    unfold problems at hfirst ih ⊢
    rw [readFrom, List.filterMap_append, hfirst, ih, List.zipIdx_cons, List.filterMap_cons]
    cases report? path number text <;> rfl

/-- What is reported of a line is that it cannot be decoded, or concerns the line. -/
theorem cause_of_report? (h : report? path number text = some p) :
    p.cause = .unreadable .invalidText ∨ p.cause.IsOfLine := by
  cases text with
  | none =>
    cases h
    exact .inl rfl
  | some text =>
    rw [report?] at h
    split at h
    · rename_i hrule
      split at h
      · rename_i problem hread
        have hcause := Line.isOfLine_of_ofText hrule hread
        obtain rfl := Option.some.inj h
        exact .inr hcause
      · cases h
    · cases h

theorem cause_of_mem_problems (hp : p ∈ problems (readFrom path number texts)) :
    p.cause = .unreadable .invalidText ∨ p.cause.IsOfLine := by
  rw [problems_readFrom, List.mem_filterMap] at hp
  obtain ⟨line, -, hreport⟩ := hp
  exact cause_of_report? hreport

theorem eq_of_mem_only {α : Type} {r : Except (List Problem) α} {only : Problem}
    (hr : r = .error [only]) (h : r = .error ps) (hp : p ∈ ps) : p = only := by
  obtain rfl := Except.error.inj (hr.symm.trans h)
  exact List.mem_singleton.1 hp

theorem not_isInternal_of_grammarOf {start : Word} (h : grammarOf path start lines = .error ps)
    (hp : p ∈ ps) : ¬ p.cause.IsInternal := by
  obtain ⟨e, -, rfl⟩ := mapError_eq_error_iff.1 h
  obtain rfl := List.mem_singleton.1 hp
  simp [Located.inFile, SourceError.IsInternal]

theorem not_isInternal_of_ofLines (h : (ofLines path lines).result = .error ps) (hp : p ∈ ps) :
    ¬ p.cause.IsInternal := by
  cases hstart : lines.head?.bind (·.left.head?) with
  | none =>
    obtain rfl := eq_of_mem_only (congrArg Traced.result (ofLines_of_none hstart)) h hp
    simp [Located.inFile, SourceError.IsInternal]
  | some start =>
    rw [ofLines_of_some hstart] at h
    by_cases hclashes : clashes lines = []
    · rw [if_pos hclashes] at h
      exact not_isInternal_of_grammarOf h hp
    · rw [if_neg hclashes] at h
      obtain rfl := Except.error.inj h
      obtain ⟨o, -, rfl⟩ := List.mem_map.1 hp
      simp [SourceError.IsInternal]

/-- No sequence of lines meets a problem of the reader. -/
theorem not_isInternal_of_ofTexts (h : (ofTexts path texts).result = .error ps) (hp : p ∈ ps) :
    ¬ p.cause.IsInternal := by
  unfold ofTexts at h
  dsimp only at h
  split at h
  · obtain rfl := Except.error.inj h
    rcases cause_of_mem_problems hp with hcause | hcause
    · simp [hcause, SourceError.IsInternal]
    · exact hcause.not_isInternal
  · exact not_isInternal_of_ofLines h hp

/-- **Every broken line is reported once, and nothing else is.**  If something is to be reported of a
line, the reading fails with what is to be reported of the lines, in order and numbered from one, and
it leaves no warnings.  No lines and no file meet a problem of the reader. -/
theorem broken_lines_reported (path : String) :
    (∀ (texts : List (Option String)) (i : Nat) (text : Option String) (p : Problem),
      texts[i]? = some text → report? path (i + 1) text = some p →
        ofTexts path texts =
          ⟨[], .error ((texts.zipIdx 1).filterMap fun line => report? path line.2 line.1)⟩) ∧
      (∀ (texts : List (Option String)) (ps : List Problem),
        (ofTexts path texts).result = .error ps → ∀ p ∈ ps, ¬ p.cause.IsInternal) ∧
      ∀ (contents? : Option ByteArray) (ps : List Problem),
        (ofFile path contents?).result = .error ps → ∀ p ∈ ps, ¬ p.cause.IsInternal := by
  refine ⟨?_, fun texts ps h p hp => not_isInternal_of_ofTexts h hp, ?_⟩
  · intro texts i text p htext hreport
    have hmem : (text, i + 1) ∈ texts.zipIdx 1 := by
      rw [List.mk_mem_zipIdx_iff_le_and_getElem?_sub]
      exact ⟨Nat.le_add_left 1 i, by simpa using htext⟩
    have hne : problems (readFrom path 1 texts) ≠ [] := by
      rw [problems_readFrom]
      exact List.ne_nil_of_mem (List.mem_filterMap.2 ⟨_, hmem, hreport⟩)
    rw [ofTexts, if_pos hne, problems_readFrom]
    rfl
  · intro contents? ps h p hp
    cases contents? with
    | none =>
      obtain rfl := Except.error.inj h
      obtain rfl := List.mem_singleton.1 hp
      simp [Located.inFile, SourceError.IsInternal]
    | some contents => exact not_isInternal_of_ofTexts h hp

/-- Lines of every kind: a comment, a rule line in which a name clashes and another has no rules, a line
that cannot be decoded, a blank line, and two broken rule lines. -/
def marred : List (Option String) :=
  [some ";=", some "S = \"S\" A", none, some " \t", some "A = | S", some "B \"C"]

/-- The three broken lines of `marred` are reported, each at its own number. -/
theorem marred_reported :
    marred[4]? = some (some "A = | S") ∧
      report? "marred.txt" 5 (some "A = | S") = some ⟨⟨"marred.txt", 5⟩, .blankAlternative⟩ ∧
      ofTexts "marred.txt" marred = ⟨[], .error [⟨⟨"marred.txt", 0⟩, .unreadable .invalidText⟩,
        ⟨⟨"marred.txt", 5⟩, .blankAlternative⟩, ⟨⟨"marred.txt", 6⟩, .openQuote⟩]⟩ := by
  have hreport : report? "marred.txt" 5 (some "A = | S") =
      some ⟨⟨"marred.txt", 5⟩, .blankAlternative⟩ := by cbv
  have hall : (marred.zipIdx 1).filterMap (fun line => report? "marred.txt" line.2 line.1) =
      [⟨⟨"marred.txt", 0⟩, .unreadable .invalidText⟩, ⟨⟨"marred.txt", 5⟩, .blankAlternative⟩,
        ⟨⟨"marred.txt", 6⟩, .openQuote⟩] := by cbv
  have hreading := (broken_lines_reported "marred.txt").1 marred 4 _ _ rfl hreport
  exact ⟨rfl, hreport, hreading.trans (by rw [hall])⟩

end Source
end NormalGrammar
