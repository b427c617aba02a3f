import NormalGrammar.Proofs.Printing

/-!
# Writing grammars and reading them back

What can be written is read back as it was (`Printable.ofFile_fileText`).  Here is the converse: what
is read from a file can be written (`printable_of_ofFile`).  Whatever the lines of the file look like,
the grammar declares its symbols in the order of its rules, and they were written in the file.
Together this is `fileText_roundTrip`: the grammars that files hold are those that can be written.
-/

namespace NormalGrammar

open Sequence

/-! ## Symbols in order -/

section Distinct

variable {α β : Type} [DecidableEq α] {xs ys left seen : List α}

/-- The elements of two lists in order: those of the second that the first lacks come after it. -/
theorem distinct_append (xs ys : List α) :
    distinct (xs ++ ys) = distinct xs ++ (distinct ys).filter (· ∉ xs) := by
  induction xs with
  | nil => exact (List.filter_eq_self.2 (by simp)).symm
  | cons x xs ih =>
    rw [List.cons_append, distinct, distinct, ih, List.filter_append, List.filter_filter]
    simp only [List.cons_append, List.mem_cons, not_or]
    congr 2
    refine List.filter_congr fun y _ => ?_
    simp

theorem distinct_append_of_subset (h : ys ⊆ xs) (zs : List α) :
    distinct (xs ++ (ys ++ zs)) = distinct (xs ++ zs) := by
  have hnil : (distinct ys).filter (· ∉ xs) = [] := by
    rw [List.filter_eq_nil_iff]
    intro y hy
    simpa using h (mem_distinct.1 hy)
  rw [← List.append_assoc, distinct_append, distinct_append xs ys, hnil, List.append_nil,
    distinct_append xs zs]
  congr 1
  refine List.filter_congr fun z _ => ?_
  have hz : z ∈ xs ++ ys ↔ z ∈ xs := by
    rw [List.mem_append]
    exact ⟨fun hz => hz.elim id fun hz => h hz, .inl⟩
  simp [hz]

theorem distinct_append_flatMap (h : left ⊆ seen) (parts : List (List α)) (rest : List α) :
    distinct (seen ++ (parts.flatMap (left ++ ·) ++ rest)) =
      distinct (seen ++ (parts.flatten ++ rest)) := by
  induction parts generalizing seen with
  | nil => rfl
  | cons part parts ih =>
    have hseen : left ⊆ seen ++ part := List.subset_append_of_subset_left _ h
    rw [List.flatMap_cons, List.append_assoc, List.append_assoc, distinct_append_of_subset h]
    simpa [List.append_assoc] using ih hseen

/-- Where a list starts each of some parts, it may as well stand there once. -/
theorem distinct_flatMap_parts (left : β → List α) (parts : β → List (List α)) {bs : List β}
    (hne : ∀ b ∈ bs, parts b ≠ []) (seen : List α) :
    distinct (seen ++ bs.flatMap fun b => (parts b).flatMap (left b ++ ·)) =
      distinct (seen ++ bs.flatMap fun b => left b ++ (parts b).flatten) := by
  induction bs generalizing seen with
  | nil => rfl
  | cons b bs ih =>
    obtain ⟨hb, hbs⟩ := List.forall_mem_cons.1 hne
    obtain ⟨part, rest, hparts⟩ := List.exists_cons_of_ne_nil hb
    have hleft : left b ⊆ seen ++ (left b ++ part) := by simp
    calc distinct (seen ++ (b :: bs).flatMap fun b => (parts b).flatMap (left b ++ ·))
      _ = distinct ((seen ++ (left b ++ part)) ++ (rest.flatMap (left b ++ ·) ++
            bs.flatMap fun b => (parts b).flatMap (left b ++ ·))) := by simp [hparts]
      _ = distinct ((seen ++ (left b ++ part)) ++ (rest.flatten ++
            bs.flatMap fun b => (parts b).flatMap (left b ++ ·))) := distinct_append_flatMap hleft _ _
      _ = distinct ((seen ++ (left b ++ (parts b).flatten)) ++
            bs.flatMap fun b => (parts b).flatMap (left b ++ ·)) := by simp [hparts]
      _ = distinct ((seen ++ (left b ++ (parts b).flatten)) ++
            bs.flatMap fun b => left b ++ (parts b).flatten) := ih hbs _
      _ = distinct (seen ++ (b :: bs).flatMap fun b => left b ++ (parts b).flatten) := by simp

end Distinct

namespace Source

variable {lines : List Line} {line : Line} {word : Word} {g : Grammar} {path text : String}
  {contents : ByteArray} {x : Symbol}

/-! ## From files to grammars -/

/-- The words of the rules of some lines: the left side of a line stands in each of its rules. -/
def ruleWords (lines : List Line) : List Word :=
  lines.flatMap fun line => line.alternatives.flatMap (line.left ++ ·)

theorem ruleWords_subset (lines : List Line) : ruleWords lines ⊆ lines.flatMap Line.words := by
  intro word hword
  obtain ⟨line, hline, hword⟩ := List.mem_flatMap.1 hword
  obtain ⟨alternative, halternative, hword⟩ := List.mem_flatMap.1 hword
  refine List.mem_flatMap.2 ⟨line, hline, ?_⟩
  rcases List.mem_append.1 hword with hword | hword
  · exact List.mem_append_left _ hword
  · exact List.mem_append_right _ (List.mem_flatten.2 ⟨alternative, halternative, hword⟩)

theorem distinct_ruleWords (hproper : ∀ line ∈ lines, line.IsProper) (p : Word → Bool) :
    distinct (((ruleWords lines).filter p).map Word.symbol) =
      distinct (((lines.flatMap Line.words).filter p).map Word.symbol) := by
  have h := distinct_flatMap_parts (fun line : Line => (line.left.filter p).map Word.symbol)
    (fun line => line.alternatives.map fun alternative => (alternative.filter p).map Word.symbol)
    (fun line hline => by simpa using (hproper line hline).alternatives_ne_nil) []
  simpa [ruleWords, Line.words, List.filter_flatMap, List.map_flatMap, List.flatMap_map,
    List.filter_flatten, List.map_flatten, Function.comp_def] using h

theorem IsGrammarOf.usedSymbols_eq (h : IsGrammarOf g lines) :
    g.usedSymbols = (ruleWords lines).map Word.symbol := by
  simp [Grammar.usedSymbols, h.rules_eq, ruleWords, Line.rules, List.map_flatMap,
    List.flatMap_assoc, List.flatMap_map]

/-- The symbols of a grammar that is made of rule lines come in the order of its rules. -/
theorem IsGrammarOf.filter_usedSymbols (h : IsGrammarOf g lines)
    (hproper : ∀ line ∈ lines, line.IsProper) {kind : Symbol → Bool} {p : Word → Bool}
    (hkind : ∀ word ∈ lines.flatMap Line.words, kind word.symbol = p word) :
    distinct (g.usedSymbols.filter kind) =
      distinct (((lines.flatMap Line.words).filter p).map Word.symbol) := by
  rw [h.usedSymbols_eq, List.filter_map, ← distinct_ruleWords hproper]
  congr 2
  exact List.filter_congr fun word hword => hkind word (ruleWords_subset lines hword)

theorem IsGrammarOf.head?_rules (h : IsGrammarOf g lines)
    (hproper : ∀ line ∈ lines, line.IsProper) :
    g.rules.head?.bind (·.left.head?) = some g.start := by
  have hstart := h.start_eq
  rw [h.rules_eq]
  cases lines with
  | nil => cases hstart
  | cons line lines =>
    obtain ⟨alternative, others, halternatives⟩ :=
      List.exists_cons_of_ne_nil (hproper line (List.mem_cons_self ..)).alternatives_ne_nil
    simpa [Line.rules, halternatives] using hstart

section ReadFrom

variable {texts : List (Option String)} {number : Nat}
  (hread : readFrom path number texts = lines.map .ok)

include hread

theorem exists_written_of_readFrom (hline : line ∈ lines) :
    ∃ text, some text ∈ texts ∧ Token.Written line.tokens text.toList ∧ line.IsProper := by
  obtain ⟨text, htext, n, hn⟩ := exists_of_mem_readFrom (hread ▸ List.mem_map_of_mem hline)
  obtain ⟨text, rfl, hwritten, hproper⟩ := written_of_readLine? hn
  exact ⟨text, htext, hwritten, hproper⟩

theorem isProper_of_readFrom (hline : line ∈ lines) : line.IsProper := by
  obtain ⟨_, -, -, hproper⟩ := exists_written_of_readFrom hread hline
  exact hproper

/-- The words of a file can be written. -/
theorem isWritable_of_readFrom (hword : word ∈ lines.flatMap Line.words) :
    word.token.IsWritable := by
  obtain ⟨line, hline, hword⟩ := List.mem_flatMap.1 hword
  obtain ⟨_, -, ⟨-, hwritable⟩, -⟩ := exists_written_of_readFrom hread hline
  exact hwritable _ (Line.token_mem_tokens hword)

theorem exists_subset_of_readFrom {name : String}
    (hword : .quoted name ∈ lines.flatMap Line.words) :
    ∃ text, some text ∈ texts ∧ name.toList ⊆ text.toList := by
  obtain ⟨line, hline, hword⟩ := List.mem_flatMap.1 hword
  obtain ⟨text, htext, ⟨hrenders, -⟩, -⟩ := exists_written_of_readFrom hread hline
  exact ⟨text, htext, hrenders.subset_of_quoted (Line.token_mem_tokens hword)⟩

end ReadFrom

/-- **What is read from a file can be written.** -/
theorem printable_of_ofFile (h : (ofFile path (some contents)).result = .ok g) : g.Printable := by
  obtain ⟨lines, hread, -, hg⟩ := ofTexts_eq_ok_iff.1 h
  have hproper : ∀ line ∈ lines, line.IsProper := fun line hline => isProper_of_readFrom hread hline
  refine ⟨hg.head?_rules hproper, ?_, ?_, ?_, ?_⟩
  · rw [hg.filter_usedSymbols hproper fun word hword => (hg.kind_symbol hword).1]
    exact hg.nonterminals_eq
  · rw [hg.filter_usedSymbols hproper fun word hword => (hg.kind_symbol hword).2]
    exact hg.terminals_eq
  · intro x hx
    obtain ⟨word, hword, hbare, rfl⟩ := hg.mem_nonterminals_iff.1 hx
    cases word with
    | bare name =>
      obtain ⟨hne, -, hname⟩ := isWritable_of_readFrom hread hword
      exact ⟨hne, hname⟩
    | quoted | epsilon => cases hbare
  · intro x hx
    obtain ⟨word, hword, hquoted, rfl⟩ := hg.mem_terminals_iff.1 hx
    cases word with
    | quoted name =>
      obtain ⟨hne, hquote⟩ := isWritable_of_readFrom hread hword
      obtain ⟨text, htext, hsubset⟩ := exists_subset_of_readFrom hread hword
      have hfeed := Text.lineFeed_not_mem_of_mem_readLines htext
      exact ⟨hne, hquote, fun hmem => hfeed (hsubset hmem)⟩
    | bare | epsilon => cases hquoted

end Source

/-- **Grammars can be written just when they can be read.**  A grammar that can be written is read
back from its text as it was, and a grammar that is read from a file, whatever it looks like, can be
written. -/
theorem fileText_roundTrip (path : String) :
    (∀ g : Grammar, g.Printable → (Source.ofFile path (some g.fileText.toUTF8)).result = .ok g) ∧
      ∀ (contents : ByteArray) (g : Grammar),
        (Source.ofFile path (some contents)).result = .ok g → g.Printable :=
  ⟨fun _ h => h.ofFile_fileText, fun _ _ h => Source.printable_of_ofFile h⟩

/-- A grammar whose terminals look like parts of lines. -/
def punctuated : Grammar where
  start := ⟨"S"⟩
  nonterminals := [⟨"S"⟩, ⟨"T"⟩]
  terminals := [⟨";"⟩, ⟨"= |"⟩]
  rules := [.ofHead ⟨"S"⟩ [⟨";"⟩, ⟨"T"⟩, ⟨"= |"⟩], .ofHead ⟨"S"⟩ [.epsilon], ⟨[⟨"= |"⟩, ⟨"T"⟩], [⟨"S"⟩]⟩]
  nodup_nonterminals := by decide
  nodup_terminals := by decide
  wellFormed := defect?_eq_none_iff.1 (by decide)

/-- `punctuated` can be written, and it is read back from its text. -/
theorem punctuated_roundTrip : punctuated.Printable ∧
    (Source.ofFile "punctuated.txt" (some punctuated.fileText.toUTF8)).result = .ok punctuated := by
  have hbare : Token.isWordChar 'S' = true ∧ Token.isWordChar 'T' = true := by decide
  have hprintable : punctuated.Printable :=
    ⟨by decide, by decide, by decide, by simpa [punctuated] using hbare, by decide⟩
  obtain ⟨hwritten, hread⟩ := fileText_roundTrip "punctuated.txt"
  have hresult := hwritten punctuated hprintable
  exact ⟨hread _ _ hresult, hresult⟩

end NormalGrammar
