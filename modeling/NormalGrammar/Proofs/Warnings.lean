import NormalGrammar.Proofs.RoundTrip
import NormalGrammar.Proofs.Sentences

/-!
# Nonterminals without rules

That a nonterminal has no rules is noticed three times: in the lines of a file, where it is warned about;
when a sample comes to it; and when it is dropped, since it derives no word.  This file asks whether the
three are about the same nonterminals.

* A nonterminal has no rules just when its name is the whole left side of no line (`rulesOf_eq_nil_iff`).
* So the warnings are the uses on right sides of the nonterminals without rules (`undefinedUses_eq`), and
  if all left sides are single nonterminals, each of these is warned about (`warned_iff`).
* Then a sample fails for want of rules at such a nonterminal only, and none is left in the end
  (`warnings_agree`).
-/

namespace NormalGrammar

variable {lines : List Line} {line : Line} {name : String} {use : Warning}

/-! ## Names on the left -/

theorem mem_definedNames_iff :
    name ∈ definedNames lines ↔ ∃ line ∈ lines, line.left = [.bare name] := by
  rw [definedNames, Sequence.mem_distinct, List.mem_filterMap]
  refine exists_congr fun line => and_congr_right fun _ => ?_
  constructor
  · intro h
    split at h
    · rename_i hleft
      rw [hleft, Option.some.inj h]
    · cases h
  · intro h
    rw [h]

/-! ## Names on the right -/

/-- The uses of nonterminals on the right side of a line, in order. -/
def Line.rightUses (line : Line) : List Warning :=
  line.alternatives.flatten.filterMap fun
    | .bare name => some ⟨line.place, name⟩
    | _ => none

theorem Line.mem_rightUses_iff :
    use ∈ line.rightUses ↔ .bare use.name ∈ line.alternatives.flatten ∧ use.place = line.place := by
  rw [rightUses, List.mem_filterMap]
  constructor
  · rintro ⟨word, hword, huse⟩
    split at huse
    · obtain rfl := Option.some.inj huse
      exact ⟨hword, rfl⟩
    · cases huse
  · rintro ⟨hword, hplace⟩
    exact ⟨_, hword, by rw [← hplace]⟩

theorem bare_mem_of_mem_rightUses (huse : use ∈ lines.flatMap Line.rightUses) :
    .bare use.name ∈ lines.flatMap Line.words := by
  obtain ⟨line, hline, huse⟩ := List.mem_flatMap.1 huse
  have hword := (Line.mem_rightUses_iff.1 huse).1
  exact List.mem_flatMap.2 ⟨line, hline, List.mem_append_right _ hword⟩

/-- The uses that are warned about are those of names that are not defined. -/
theorem Line.undefinedUses_eq (defined : List String) (line : Line) :
    line.undefinedUses defined = line.rightUses.filter (·.name ∉ defined) := by
  rw [undefinedUses, rightUses, List.filter_filterMap]
  refine List.filterMap_congr fun word _ => ?_
  cases word with
  | bare name => by_cases hname : name ∈ defined <;> simp [hname, Option.filter]
  | quoted | epsilon => rfl

namespace Source

variable {g n : Grammar} {x : Symbol} {path : String} {contents : ByteArray} {limit : Nat}

/-! ## Warnings and rules -/

section IsGrammarOf

variable (h : IsGrammarOf g lines) (hproper : ∀ line ∈ lines, line.IsProper)

include h hproper

theorem IsGrammarOf.exists_rule (hline : line ∈ lines) :
    ∃ rule ∈ g.rules, rule.left = line.left.map Word.symbol := by
  obtain ⟨alternative, others, halternatives⟩ :=
    List.exists_cons_of_ne_nil (hproper line hline).alternatives_ne_nil
  refine ⟨⟨line.left.map Word.symbol, alternative.map Word.symbol⟩, ?_, rfl⟩
  rw [h.rules_eq]
  exact List.mem_flatMap.2 ⟨line, hline, List.mem_map.2 ⟨alternative, by simp [halternatives], rfl⟩⟩

/-- **A nonterminal has no rules** just when its name is not defined. -/
theorem IsGrammarOf.rulesOf_eq_nil_iff (hx : x ∈ g.nonterminals) :
    g.rulesOf x = [] ↔ x.name ∉ definedNames lines := by
  rw [List.eq_nil_iff_forall_not_mem, mem_definedNames_iff]
  constructor
  · rintro hnone ⟨line, hline, hleft⟩
    obtain ⟨rule, hrule, hrleft⟩ := h.exists_rule hproper hline
    refine hnone rule (Grammar.mem_rulesOf_iff_left.2 ⟨hrule, ?_⟩)
    rw [hrleft, hleft]
    rfl
  · intro hnone rule hrule
    obtain ⟨hrule, hleft⟩ := Grammar.mem_rulesOf_iff_left.1 hrule
    rw [h.rules_eq] at hrule
    obtain ⟨line, hline, hrule⟩ := List.mem_flatMap.1 hrule
    obtain ⟨alternative, -, rfl⟩ := List.mem_map.1 hrule
    obtain ⟨word, hword, rfl⟩ := List.map_eq_singleton_iff.1 hleft
    -- the word is written bare, since its symbol is a nonterminal
    have hmem : word ∈ lines.flatMap Line.words :=
      List.mem_flatMap.2 ⟨line, hline, List.mem_append_left _ (by simp [hword])⟩
    have hkind := (h.kind_symbol hmem).1
    rw [Grammar.isNonterminal_iff.2 hx] at hkind
    cases word with
    | bare name => exact hnone ⟨line, hline, hword⟩
    | quoted | epsilon => cases hkind

/-- **The warnings** are the uses on right sides of nonterminals without rules. -/
theorem IsGrammarOf.undefinedUses_eq : undefinedUses lines =
    (lines.flatMap Line.rightUses).filter fun use => g.rulesOf ⟨use.name⟩ = [] := by
  have hfilter : ∀ line ∈ lines, line.undefinedUses (definedNames lines) =
      line.rightUses.filter fun use => g.rulesOf ⟨use.name⟩ = [] := by
    intro line hline
    rw [Line.undefinedUses_eq]
    refine List.filter_congr fun use huse => ?_
    have hword := bare_mem_of_mem_rightUses (List.mem_flatMap.2 ⟨line, hline, huse⟩)
    have hx : ⟨use.name⟩ ∈ g.nonterminals := h.mem_nonterminals_iff.2 ⟨_, hword, rfl, rfl⟩
    exact decide_eq_decide.2 (h.rulesOf_eq_nil_iff hproper hx).symm
  rw [undefinedUses, List.filter_flatMap]
  exact List.flatMap_congr hfilter

theorem IsGrammarOf.exists_left (hcf : g.isContextFree = true) (hline : line ∈ lines) :
    ∃ word, line.left = [word] := by
  obtain ⟨rule, hrule, hrleft⟩ := h.exists_rule hproper hline
  obtain ⟨x, -, hleft⟩ := Grammar.isContextFree_iff.1 hcf rule hrule
  obtain ⟨word, hword, -⟩ := List.map_eq_singleton_iff.1 (hrleft.symm.trans hleft)
  exact ⟨word, hword⟩

/-- **The nonterminals without rules are warned about**, if all left sides are single nonterminals. -/
theorem IsGrammarOf.warned_iff (hcf : g.isContextFree = true) :
    x.name ∈ (undefinedUses lines).map Warning.name ↔ x ∈ g.nonterminals ∧ g.rulesOf x = [] := by
  rw [h.undefinedUses_eq hproper, List.mem_map]
  constructor
  · rintro ⟨use, huse, hname⟩
    obtain ⟨huse, hrules⟩ := List.mem_filter.1 huse
    have hword := bare_mem_of_mem_rightUses huse
    rw [hname] at hword hrules
    exact ⟨h.mem_nonterminals_iff.2 ⟨_, hword, rfl, rfl⟩, of_decide_eq_true hrules⟩
  · rintro ⟨hx, hrules⟩
    obtain ⟨word, hword, hbare, rfl⟩ := h.mem_nonterminals_iff.1 hx
    obtain ⟨line, hline, hword⟩ := List.mem_flatMap.1 hword
    cases word with
    | bare name =>
      rcases List.mem_append.1 hword with hleft | hright
      · -- on a left side it would be alone, and have a rule
        obtain ⟨word, hword⟩ := h.exists_left hproper hcf hline
        rw [hword] at hleft
        obtain rfl := List.mem_singleton.1 hleft
        exact absurd (mem_definedNames_iff.2 ⟨line, hline, hword⟩)
          ((h.rulesOf_eq_nil_iff hproper hx).1 hrules)
      · exact ⟨⟨line.place, name⟩, List.mem_filter.2
          ⟨List.mem_flatMap.2 ⟨line, hline, Line.mem_rightUses_iff.2 ⟨hright, rfl⟩⟩,
            decide_eq_true hrules⟩, rfl⟩
    | quoted | epsilon => cases hbare

end IsGrammarOf

/-- What a file is warned about, if it holds a grammar. -/
theorem notes_of_ofFile (hg : (ofFile path (some contents)).result = .ok g) :
    ∃ lines, readFrom path 1 (Text.readLines contents) = lines.map .ok ∧ IsGrammarOf g lines ∧
      (ofFile path (some contents)).notes = undefinedUses lines := by
  obtain ⟨lines, hread, hclashes, hlines⟩ := ofTexts_eq_ok_iff.1 hg
  refine ⟨lines, hread, hlines, ?_⟩
  obtain ⟨start, hstart, -⟩ := Option.map_eq_some_iff.1 hlines.start_eq
  rw [ofFile, ofTexts_of_readFrom hread, ofLines_of_some hstart]

end Source

/-! ## Samples and stages -/

namespace Grammar

variable {g e u r p n : Grammar} {x : Symbol} {limit depth : Nat} {source : WordSource}

/-- A sample fails for want of rules only at a nonterminal without rules. -/
theorem rulesOf_eq_nil_of_sampleFrom (hcf : g.isContextFree = true)
    (hx : (g.sampleFrom depth source).1 = .error (.noRules x)) :
    x ∈ g.nonterminals ∧ g.rulesOf x = [] := by
  have hends := ends_sample hcf depth source
  rw [show Sampler.outcome (g.sample depth) source = g.sampleFrom depth source from rfl, hx] at hends
  exact ⟨hends.1, hends.2.2⟩

end Grammar

/-- A nonterminal without rules derives no word, so it is not left after the fourth stage. -/
theorem Steps.not_mem_of_rulesOf_eq_nil (s : Steps limit g e u r p n)
    (hcf : g.isContextFree = true) (hx : x ∈ g.nonterminals) (hrules : g.rulesOf x = []) :
    x ∉ p.nonterminals := by
  intro hp
  obtain ⟨hr, hε, -, -⟩ := s.parts hcf
  obtain ⟨hxr, w, hw⟩ := ((Grammar.productive_eq_ok hr hε s.productive).2.1 x).1 hp
  have hproductive : g.IsProductive x := ⟨w, ((s.derives_reachable_iff hcf hxr).1 hw).1⟩
  exact hproductive.rulesOf_ne_nil hx hrules

namespace Source

variable {g : Grammar} {path : String} {contents : ByteArray}

/-- **Warnings, lookups, samples and stages agree.**  If the left sides of the grammar in a file are single
nonterminals, the nonterminals without rules are those that are warned about, once for each use on a right
side and in the order of the file.  Only they can make a sample fail for want of rules, whatever words are
drawn and at any depth, and if the normalization succeeds, none of them is left after the fourth stage. -/
theorem warnings_agree (hg : (ofFile path (some contents)).result = .ok g)
    (hcf : g.isContextFree = true) :
    (∀ x, x.name ∈ (ofFile path (some contents)).notes.map Warning.name ↔
      x ∈ g.nonterminals ∧ g.rulesOf x = []) ∧
    (∃ lines : List Line, readFrom path 1 (Text.readLines contents) = lines.map .ok ∧
      (ofFile path (some contents)).notes =
        (lines.flatMap Line.rightUses).filter fun use => g.rulesOf ⟨use.name⟩ = []) ∧
    (∀ depth source x, (g.sampleFrom depth source).1 = .error (.noRules x) →
      x.name ∈ (ofFile path (some contents)).notes.map Warning.name) ∧
    ∀ limit n, g.normalize limit = .ok n →
      ∃ p, (g.normalization limit).finished.lookup .productivity = some p ∧
        ∀ use ∈ (ofFile path (some contents)).notes, ⟨use.name⟩ ∉ p.nonterminals := by
  obtain ⟨lines, hread, hlines, hnotes⟩ := notes_of_ofFile hg
  have hproper : ∀ line ∈ lines, line.IsProper := fun line hline => isProper_of_readFrom hread hline
  have hwarned : ∀ x : Symbol, x.name ∈ (ofFile path (some contents)).notes.map Warning.name ↔
      x ∈ g.nonterminals ∧ g.rulesOf x = [] := by
    intro x
    rw [hnotes]
    exact hlines.warned_iff hproper hcf
  refine ⟨hwarned, ⟨lines, hread, hnotes.trans (hlines.undefinedUses_eq hproper)⟩, ?_, ?_⟩
  · intro depth source x hx
    exact (hwarned x).2 (Grammar.rulesOf_eq_nil_of_sampleFrom hcf hx)
  · intro limit n hn
    obtain ⟨e, u, r, p, hsteps, hfinished⟩ := normalize_eq_ok hcf hn
    refine ⟨p, by rw [hfinished]; rfl, fun use huse => ?_⟩
    obtain ⟨hx, hrules⟩ := (hwarned ⟨use.name⟩).1 (List.mem_map_of_mem huse)
    exact hsteps.not_mem_of_rulesOf_eq_nil hcf hx hrules

/-- A file with nonterminals that have no rules. -/
def loose : String := "S = U | \"v\" V U\nS = \"w\"\nW = V\n"

/-- The lines of `loose`. -/
def looseLines : List Line :=
  [⟨[.bare "S"], [[.bare "U"], [.quoted "v", .bare "V", .bare "U"]], ⟨"loose", 1⟩⟩,
    ⟨[.bare "S"], [[.quoted "w"]], ⟨"loose", 2⟩⟩, ⟨[.bare "W"], [[.bare "V"]], ⟨"loose", 3⟩⟩]

/-- The grammar in `loose`. -/
def looseGrammar : Grammar where
  start := ⟨"S"⟩
  nonterminals := [⟨"S"⟩, ⟨"U"⟩, ⟨"V"⟩, ⟨"W"⟩]
  terminals := [⟨"v"⟩, ⟨"w"⟩]
  rules := [.ofHead ⟨"S"⟩ [⟨"U"⟩], .ofHead ⟨"S"⟩ [⟨"v"⟩, ⟨"V"⟩, ⟨"U"⟩], .ofHead ⟨"S"⟩ [⟨"w"⟩],
    .ofHead ⟨"W"⟩ [⟨"V"⟩]]
  nodup_nonterminals := by decide
  nodup_terminals := by decide
  wellFormed := defect?_eq_none_iff.1 (by decide)

/-- In `loose`, `U` and `V` are warned about twice; a sample fails at `U`, and neither is left in the
end. -/
theorem loose_warnings :
    (ofFile "loose" (some loose.toUTF8)).result = .ok looseGrammar ∧
    looseGrammar.isContextFree = true ∧
    (ofFile "loose" (some loose.toUTF8)).notes =
      [⟨⟨"loose", 1⟩, "U"⟩, ⟨⟨"loose", 1⟩, "V"⟩, ⟨⟨"loose", 1⟩, "U"⟩, ⟨⟨"loose", 3⟩, "V"⟩] ∧
    (looseGrammar.sampleFrom 2 (.ofScript [0])).1 = .error (.noRules ⟨"U"⟩) ∧
    "U" ∈ (ofFile "loose" (some loose.toUTF8)).notes.map Warning.name ∧
    ∃ n p, looseGrammar.normalize 10 = .ok n ∧
      (looseGrammar.normalization 10).finished.lookup .productivity = some p ∧
      ∀ use ∈ (ofFile "loose" (some loose.toUTF8)).notes, ⟨use.name⟩ ∉ p.nonterminals := by
  have htexts : Text.readLines loose.toUTF8 =
      [some "S = U | \"v\" V U", some "S = \"w\"", some "W = V"] := by
    rw [Text.readLines_toUTF8]
    decide
  have hlines : readFrom "loose" 1 (Text.readLines loose.toUTF8) = looseLines.map .ok := by
    rw [htexts]
    cbv
  have hreading : ofFile "loose" (some loose.toUTF8) = ofLines "loose" looseLines :=
    ofTexts_of_readFrom hlines
  have hg : (ofFile "loose" (some loose.toUTF8)).result = .ok looseGrammar := by
    rw [hreading]
    decide
  have hnotes : (ofFile "loose" (some loose.toUTF8)).notes =
      [⟨⟨"loose", 1⟩, "U"⟩, ⟨⟨"loose", 1⟩, "V"⟩, ⟨⟨"loose", 1⟩, "U"⟩, ⟨⟨"loose", 3⟩, "V"⟩] := by
    rw [hreading]
    decide
  have hcf : looseGrammar.isContextFree = true := by decide
  have hfailed : (looseGrammar.sampleFrom 2 (.ofScript [0])).1 = .error (.noRules ⟨"U"⟩) := by rfl
  obtain ⟨n, hn⟩ : ∃ n, looseGrammar.normalize 10 = .ok n := exists_eq_ok_of_isSome (by decide_cbv)
  obtain ⟨-, -, hsamples, hstages⟩ := warnings_agree hg hcf
  obtain ⟨p, hp, hleft⟩ := hstages 10 n hn
  exact ⟨hg, hcf, hnotes, hfailed, hsamples _ _ _ hfailed, n, p, hn, hp, hleft⟩

end Source
end NormalGrammar
