import NormalGrammar.Proofs.KeptParts

/-!
# Productive symbols are those with heights

What derives a word is found in two ways.  The search for productive symbols adds in each pass all
that follows from the passes before; the passes for heights change one height after the other on the
spot, and may lower it again.  They come to the same end, although they see different things on the
way.

* The symbols with heights are listed once (`nodup_symbols_heights`), and a rule has a height just if
  no nonterminal of its right side lacks one (`isSome_heightOfRule?_iff`).
* What has a height at some time has one in the end, so a rule that is dropped never had one
  (`Backed.heightOfRule?_eq_none`).  A pass over the rules that are kept therefore does what a pass
  over all rules does (`heightPass_productive`).
* Repetitions of one map that come to rest do so at the same place, whatever their number: the
  heights are the same after the unproductive part has been dropped (`heights_productive`).
-/

namespace NormalGrammar

/-! ## The symbols that have heights -/

namespace Heights

variable {known : Heights} {x : Symbol} {h : Nat}

/-- The symbols that have heights. -/
def symbols (known : Heights) : List Symbol := known.map Prod.fst

theorem mem_symbols_iff : x ∈ known.symbols ↔ (known.lookup x).isSome := by
  rw [symbols, List.mem_map, List.lookup_isSome_iff]
  refine exists_congr fun entry => and_congr_right fun _ => ?_
  rw [beq_iff_eq, eq_comm]

theorem nodup_symbols_assign (hknown : known.symbols.Nodup) : (known.assign x h).symbols.Nodup := by
  rw [symbols, assign, List.map_cons, List.nodup_cons]
  refine ⟨fun hx => ?_, hknown.sublist (List.filter_sublist.map _)⟩
  obtain ⟨entry, hentry, rfl⟩ := List.mem_map.1 hx
  exact of_decide_eq_true (List.mem_filter.1 hentry).2 rfl

end Heights

namespace Grammar

variable {g h : Grammar} {known : Heights} {rule : Rule} {rules : List Rule} {x : Symbol}
  {xs : List Symbol} {limit : Nat}

theorem nodup_symbols_lower (hknown : known.symbols.Nodup) :
    (g.lower known rule).symbols.Nodup := by
  unfold lower
  split
  · split
    · exact Heights.nodup_symbols_assign hknown
    · exact hknown
  · exact hknown

/-- Each symbol is listed once, with one height. -/
theorem nodup_symbols_heights (g : Grammar) : g.heights.symbols.Nodup := by
  have hpass : ∀ known : Heights, known.symbols.Nodup → (g.heightPass known).symbols.Nodup :=
    fun known hknown => List.foldlRecOn (motive := fun later : Heights => later.symbols.Nodup)
      g.rules g.lower hknown fun _ hlater _ _ => nodup_symbols_lower hlater
  rw [heights, heightPasses_eq_iterate]
  have hnil : (Heights.symbols []).Nodup := List.nodup_nil
  exact Function.Iterate.rec (fun later : Heights => later.symbols.Nodup) hnil hpass _

/-! ## Rules that have heights -/

theorem isSome_largestHeight?_iff : (g.largestHeight? known xs).isSome ↔
    ∀ x ∈ xs, x ∈ g.nonterminals → (known.lookup x).isSome := by
  induction xs with
  | nil => simp [largestHeight?]
  | cons x xs ih =>
    have hx : (g.heightOfSymbol? known x).isSome ↔
        (x ∈ g.nonterminals → (known.lookup x).isSome) := by
      by_cases hn : x ∈ g.nonterminals
      · simp [heightOfSymbol?, hn]
      · simp [heightOfSymbol?, hn]
    rw [List.forall_mem_cons, ← ih, ← hx, largestHeight?]
    cases g.heightOfSymbol? known x with
    | none => simp
    | some height => cases g.largestHeight? known xs <;> simp

/-- A rule has a height just if its right side has. -/
theorem isSome_heightOfRule?_iff : (g.heightOfRule? known rule).isSome ↔
    ∀ x ∈ rule.right, x ∈ g.nonterminals → (known.lookup x).isSome := by
  rw [heightOfRule?, Option.isSome_map, isSome_largestHeight?_iff]

/-- In the end a rule has a height just if the nonterminals of its right side derive words. -/
theorem isSome_heightOfRule?_heights_iff : (g.heightOfRule? g.heights rule).isSome ↔
    ∀ x ∈ rule.right, x ∈ g.nonterminals → g.IsProductive x := by
  rw [isSome_heightOfRule?_iff]
  refine forall₂_congr fun x _ => forall_congr' fun hn => ?_
  rw [Option.isSome_iff_exists, exists_lookup_heights_iff hn]

/-- **A rule that has no height in the end never had one**, for what has a height on the way derives
a word. -/
theorem Backed.heightOfRule?_eq_none (backed : Backed g known)
    (hrule : g.heightOfRule? g.heights rule = none) : g.heightOfRule? known rule = none := by
  rw [← Option.not_isSome_iff_eq_none] at hrule ⊢
  refine fun hsome => hrule (isSome_heightOfRule?_heights_iff.2 fun x hx hn => ?_)
  obtain ⟨k, hk⟩ := Option.isSome_iff_exists.1 (isSome_heightOfRule?_iff.1 hsome x hx hn)
  exact backed.isProductive hk

theorem largestHeight?_congr (hxs : ∀ x ∈ xs, x ∈ h.nonterminals ↔ x ∈ g.nonterminals) :
    h.largestHeight? known xs = g.largestHeight? known xs := by
  induction xs with
  | nil => rfl
  | cons x xs ih =>
    obtain ⟨hx, hxs⟩ := List.forall_mem_cons.1 hxs
    simp only [largestHeight?, heightOfSymbol?, isNonterminal_iff, hx, ih hxs]

/-! ## The kept part -/

section Kept

variable (hcf : g.isContextFree = true) (hε : g.NoEmptyRules)
  (hh : (g.productive limit).result = .ok h)

include hcf hε hh

theorem nonterminals_productive_perm : h.nonterminals.Perm g.heights.symbols := by
  refine (List.perm_ext_iff_of_nodup h.nodup_nonterminals (nodup_symbols_heights g)).2 fun x => ?_
  obtain ⟨-, hn, -, -⟩ := productive_eq_ok hcf hε hh
  rw [hn, Heights.mem_symbols_iff, Option.isSome_iff_exists]
  constructor
  · rintro ⟨hx, hproductive⟩
    exact (exists_lookup_heights_iff hx).2 hproductive
  · rintro ⟨k, hk⟩
    exact ⟨mem_nonterminals_of_lookup_heights hcf hk, isProductive_of_lookup_heights hk⟩

theorem rules_productive_eq_filter :
    h.rules = g.rules.filter fun rule => (g.heightOfRule? g.heights rule).isSome := by
  obtain ⟨-, -, hr⟩ := productive_eq_ok_filter hcf hε hh
  refine hr.trans (List.filter_congr fun rule _ => ?_)
  rw [Bool.eq_iff_iff, decide_eq_true_eq, isSome_heightOfRule?_heights_iff]

theorem lower_productive (hrule : rule ∈ h.rules) : h.lower known rule = g.lower known rule := by
  obtain ⟨-, hn, -, hr⟩ := productive_eq_ok hcf hε hh
  have hheight : h.heightOfRule? known rule = g.heightOfRule? known rule := by
    rw [heightOfRule?, heightOfRule?, largestHeight?_congr fun x hx => ?_]
    exact (hn x).trans (and_iff_left (((hr rule).1 hrule).2 x hx))
  simp only [lower, hheight]

/-- Rule by rule, those that are dropped did nothing. -/
theorem foldl_lower_filter (backed : Backed g known) (hrules : ∀ rule ∈ rules, rule ∈ g.rules) :
    (rules.filter fun rule => (g.heightOfRule? g.heights rule).isSome).foldl h.lower known =
      rules.foldl g.lower known := by
  induction rules generalizing known with
  | nil => rfl
  | cons rule rules ih =>
    obtain ⟨hrule, hrules⟩ := List.forall_mem_cons.1 hrules
    rw [List.foldl_cons]
    by_cases hkept : (g.heightOfRule? g.heights rule).isSome
    · -- the rule is kept
      have hmem : rule ∈ h.rules := by
        rw [rules_productive_eq_filter hcf hε hh]
        exact List.mem_filter.2 ⟨hrule, hkept⟩
      rw [List.filter_cons, if_pos hkept, List.foldl_cons, lower_productive hcf hε hh hmem]
      exact ih (backed.lower hrule) hrules
    · -- the rule is dropped, and has nothing to lower
      have hnone := backed.heightOfRule?_eq_none (Option.not_isSome_iff_eq_none.1 hkept)
      have hsame : g.lower known rule = known := lower_eq_self fun x k _ hk => by
        cases hnone.symm.trans hk
      rw [List.filter_cons, if_neg hkept, hsame]
      exact ih backed hrules

/-- **A pass over the kept rules is a pass over all rules.** -/
theorem heightPass_productive (backed : Backed g known) :
    h.heightPass known = g.heightPass known := by
  rw [heightPass, rules_productive_eq_filter hcf hε hh]
  exact foldl_lower_filter hcf hε hh backed fun _ hrule => hrule

theorem iterate_heightPass_productive (n : Nat) : h.heightPass^[n] [] = g.heightPass^[n] [] := by
  induction n with
  | zero => rfl
  | succ n ih =>
    rw [Function.iterate_succ_apply', Function.iterate_succ_apply', ih]
    exact heightPass_productive hcf hε hh ((Backed.nil g).iterate n)

/-- **Heights stay** when what derives no word is dropped: both grammars make the same passes, until
none changes anything. -/
theorem heights_productive : h.heights = g.heights := by
  -- the numbers of passes differ, but the passes are the same from the first one on
  have hiterate : g.heights = h.heightPass^[g.rules.length] [] := by
    rw [heights, heightPasses_eq_iterate, iterate_heightPass_productive hcf hε hh]
  have hfixed : h.heightPass h.heights = h.heights :=
    heightPass_heights (isContextFree_productive hcf hε hh)
  have hfixed' : h.heightPass g.heights = g.heights := by
    rw [heightPass_productive hcf hε hh (backed_heights g), heightPass_heights hcf]
  calc h.heights = h.heightPass^[g.rules.length] h.heights :=
        (Function.iterate_fixed hfixed _).symm
    _ = h.heightPass^[g.rules.length] (h.heightPass^[h.rules.length] []) := by
        rw [← heightPasses_eq_iterate h h.rules.length, heights]
    _ = h.heightPass^[h.rules.length] g.heights := by
        rw [hiterate, Function.Commute.iterate_iterate_self h.heightPass]
    _ = g.heights := Function.iterate_fixed hfixed' _

end Kept

/-- **Both ways find the same.**  Where no right side is empty and the start symbol derives a word,
more passes than there are nonterminals find the productive part of a context free grammar.  Its
nonterminals are the symbols with heights, its rules are the rules with heights, in the order in which
they were given, and its own heights are the same. -/
theorem productive_keeps_heights (hcf : g.isContextFree = true) (hε : g.NoEmptyRules)
    (hlimit : g.nonterminals.length < limit) (hstart : g.IsProductive g.start) :
    ∃ h, (g.productive limit).result = .ok h ∧ h.nonterminals.Perm g.heights.symbols ∧
      (h.rules = g.rules.filter fun rule => (g.heightOfRule? g.heights rule).isSome) ∧
      h.heights = g.heights := by
  obtain ⟨h, hh⟩ := exists_productive hcf hε hlimit hstart
  exact ⟨h, hh, nonterminals_productive_perm hcf hε hh, rules_productive_eq_filter hcf hε hh,
    heights_productive hcf hε hh⟩

/-- `S` is found to have height 2 before and after what derives no word is dropped from `fruitless`. -/
theorem fruitless_keeps_heights : fruitless.isContextFree = true ∧ fruitless.NoEmptyRules ∧
    fruitless.nonterminals.length < 5 ∧ fruitless.IsProductive fruitless.start ∧
    ∃ h, (fruitless.productive 5).result = .ok h ∧ h.nonterminals.Perm [⟨"S"⟩, ⟨"A"⟩] ∧
      h.rules = [.ofHead ⟨"S"⟩ [⟨"A"⟩, ⟨"A"⟩], .ofHead ⟨"A"⟩ [⟨"a"⟩]] ∧
      h.heights = [(⟨"S"⟩, 2), (⟨"A"⟩, 1)] := by
  have hcf : fruitless.isContextFree = true := by decide
  have hε : fruitless.NoEmptyRules := by unfold NoEmptyRules; decide
  have hlimit : fruitless.nonterminals.length < 5 := by decide
  have hstart : fruitless.IsProductive fruitless.start := by decide
  have hheights : fruitless.heights = [(⟨"S"⟩, 2), (⟨"A"⟩, 1)] := by decide
  obtain ⟨h, hh, hn, hr, hsame⟩ := productive_keeps_heights hcf hε hlimit hstart
  refine ⟨hcf, hε, hlimit, hstart, h, hh, ?_, hr.trans ?_, hsame.trans hheights⟩
  · rwa [hheights] at hn
  · decide

end Grammar

end NormalGrammar
