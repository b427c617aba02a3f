import NormalGrammar.Proofs.FixedPoints
import NormalGrammar.Proofs.Heights
import NormalGrammar.Proofs.Outcomes

/-!
# What the two filters keep, in order

Which symbols and rules are kept where what is out of reach or derives no word is dropped is known as
a set (`reachable_eq_ok`, `productive_eq_ok`).  Here it is known as a list, and so is when the two
stages succeed.

* Whether a symbol is reachable, or productive, can be decided: the search with enough passes finds
  the one, and the heights tell the other (`isProductive_iff`).
* With as many passes as there are symbols, what is reachable is kept, and is left as it is from
  then on (`reachable_keeps_reachable`).
* With more passes than there are nonterminals, what is productive is kept, unless the start symbol
  is dropped (`productive_keeps_productive`).
-/

namespace NormalGrammar

open Sequence

namespace Grammar

variable {g h : Grammar} {limit : Nat} {x : Symbol}

/-! ## Deciding what is kept -/

/-- The symbols that the search finds with as many passes as there are symbols. -/
def reachableSymbols (g : Grammar) : List Symbol :=
  match Reachable.symbols (g.nonterminals.length + g.terminals.length) g with
  | .ok found => found
  | .error _ => []

theorem mem_reachableSymbols_iff : x ∈ g.reachableSymbols ↔ g.IsReachable x := by
  obtain ⟨found, hfound⟩ := Reachable.exists_symbols (Nat.le_refl _)
  rw [reachableSymbols, hfound]
  exact Reachable.mem_symbols_iff hfound

instance (g : Grammar) : DecidablePred g.IsReachable := fun _ =>
  decidable_of_iff _ mem_reachableSymbols_iff

/-- A symbol derives a word if it is the empty word, a terminal, or has a height. -/
theorem isProductive_iff : g.IsProductive x ↔
    x = Symbol.epsilon ∨ x ∈ g.terminals ∨ (g.heights.lookup x).isSome := by
  rw [Option.isSome_iff_exists]
  constructor
  · rintro ⟨w, height, size, d⟩
    cases d with
    | epsilon _ => exact .inl rfl
    | terminal ha _ => exact .inr (.inl ha)
    | expand hrule dr _ =>
      rcases List.mem_append.1 (declared_of_mem_rulesOf hrule) with hx | hx
      · exact .inr (.inr ((exists_lookup_heights_iff hx).2 ⟨_, .of_rule hrule ⟨_, _, dr⟩⟩))
      · exact .inr (.inl hx)
  · rintro (rfl | ha | ⟨height, hx⟩)
    · exact ⟨[], derives_epsilon_iff.2 rfl⟩
    · exact ⟨[x], derives_terminal ha⟩
    · exact isProductive_of_lookup_heights hx

instance (g : Grammar) : DecidablePred g.IsProductive := fun _ =>
  decidable_of_iff' _ isProductive_iff

/-! ## What is reachable -/

/-- With as many passes as there are symbols, what is reachable is found and kept. -/
theorem exists_reachable (hcf : g.isContextFree = true)
    (hlimit : g.nonterminals.length + g.terminals.length ≤ limit) :
    ∃ h, (g.reachable limit).result = .ok h := by
  obtain ⟨found, hfound⟩ := Reachable.exists_symbols hlimit
  have hbuild := Stage.exists_build .reachability
    (wellFormed_reachable hcf fun x => Reachable.mem_symbols_iff hfound)
  exact Traced.exists_result_bind hfound (Traced.exists_result_bind rfl hbuild)

/-- The lists of the grammar that is kept hold what is reachable, in the order in which it was
given. -/
theorem reachable_eq_ok_filter (hcf : g.isContextFree = true)
    (hh : (g.reachable limit).result = .ok h) :
    h.nonterminals = g.nonterminals.filter (g.IsReachable ·) ∧
      h.terminals = g.terminals.filter (g.IsReachable ·) ∧
      h.rules = g.rules.filter fun rule => rule.head?.any (g.IsReachable ·) := by
  obtain ⟨found, hfound, -, hn, ht, hr⟩ := reachable_eq_ok_found hh
  have hmem : ∀ x, x ∈ found ↔ g.IsReachable x := fun x => Reachable.mem_symbols_iff hfound
  simp only [hmem] at hn ht hr
  refine ⟨hn, ht, hr.trans (List.filter_congr fun rule hrule => ?_)⟩
  obtain ⟨x, -, hleft⟩ := isContextFree_iff.1 hcf rule hrule
  simp [Rule.head?, hleft]

/-- **Exactly what is reachable is kept**, with as many passes as there are symbols: the symbols that
can be reached from the start symbol and the rules for them, in the order in which they were given.
The words of the start symbol are the same, and a second time nothing is dropped. -/
theorem reachable_keeps_reachable (hcf : g.isContextFree = true)
    (hlimit : g.nonterminals.length + g.terminals.length ≤ limit) :
    ∃ h, (g.reachable limit).result = .ok h ∧ h.start = g.start ∧
      h.nonterminals = g.nonterminals.filter (g.IsReachable ·) ∧
      h.terminals = g.terminals.filter (g.IsReachable ·) ∧
      (h.rules = g.rules.filter fun rule => rule.head?.any (g.IsReachable ·)) ∧
      (∀ w, h.Generates w ↔ g.Generates w) ∧
      (h.reachable limit).result = .ok h := by
  obtain ⟨h, hh⟩ := exists_reachable hcf hlimit
  obtain ⟨hn, ht, hr⟩ := reachable_eq_ok_filter hcf hh
  have hs : h.start = g.start := (reachable_eq_ok hh).1
  refine ⟨h, hh, hs, hn, ht, hr, fun w => ?_, reachable_eq_self (allReachable_reachable hh) ?_⟩
  · rw [Generates, Generates, hs]
    refine derives_reachable_iff hh ?_
    simp [IsReachable.start]
  · have hfewer : h.nonterminals.length ≤ g.nonterminals.length := hn ▸ List.length_filter_le ..
    have hfewer' : h.terminals.length ≤ g.terminals.length := ht ▸ List.length_filter_le ..
    omega

/-- A grammar in which `D` and all that only `D` mentions is out of reach, and `A` leads back to the
start symbol. -/
def strayed : Grammar where
  start := ⟨"S"⟩
  nonterminals := [⟨"D"⟩, ⟨"A"⟩, ⟨"S"⟩]
  terminals := [⟨"d"⟩, ⟨"b"⟩, ⟨"a"⟩]
  rules := [.ofHead ⟨"D"⟩ [⟨"d"⟩, ⟨"S"⟩], .ofHead ⟨"S"⟩ [⟨"a"⟩, ⟨"A"⟩], .ofHead ⟨"A"⟩ [⟨"S"⟩, ⟨"b"⟩],
    .ofHead ⟨"A"⟩ [.epsilon]]
  nodup_nonterminals := by decide
  nodup_terminals := by decide
  wellFormed := defect?_eq_none_iff.1 (by decide)

/-- What is kept of `strayed`, in the order in which it was given. -/
theorem strayed_keeps_reachable : strayed.isContextFree = true ∧
    strayed.nonterminals.length + strayed.terminals.length ≤ 6 ∧
    ∃ h, (strayed.reachable 6).result = .ok h ∧ h.start = strayed.start ∧
      h.nonterminals = [⟨"A"⟩, ⟨"S"⟩] ∧ h.terminals = [⟨"b"⟩, ⟨"a"⟩] ∧
      h.rules = [.ofHead ⟨"S"⟩ [⟨"a"⟩, ⟨"A"⟩], .ofHead ⟨"A"⟩ [⟨"S"⟩, ⟨"b"⟩],
        .ofHead ⟨"A"⟩ [.epsilon]] ∧
      (∀ w, h.Generates w ↔ strayed.Generates w) ∧ (h.reachable 6).result = .ok h := by
  have hcf : strayed.isContextFree = true := by decide
  have hlimit : strayed.nonterminals.length + strayed.terminals.length ≤ 6 := by decide
  obtain ⟨h, hh, hs, hn, ht, hr, hwords, hagain⟩ := reachable_keeps_reachable hcf hlimit
  refine ⟨hcf, hlimit, h, hh, hs, hn.trans ?_, ht.trans ?_, hr.trans ?_, hwords, hagain⟩
  · decide_cbv
  · decide_cbv
  · decide_cbv

/-! ## What is productive -/

/-- The lists of the grammar that is kept hold what is productive, in the order in which it was
given. -/
theorem productive_eq_ok_filter (hcf : g.isContextFree = true) (hε : g.NoEmptyRules)
    (hh : (g.productive limit).result = .ok h) :
    h.nonterminals = g.nonterminals.filter (g.IsProductive ·) ∧ h.terminals = g.terminals ∧
      h.rules = g.rules.filter fun rule =>
        ∀ y ∈ rule.right, y ∈ g.nonterminals → g.IsProductive y := by
  obtain ⟨known, hknown, -, hn, ht, hr⟩ := productive_eq_ok_known hh
  have hmem : ∀ x, x ∈ known ↔ x ∈ g.nonterminals ∧ g.IsProductive x :=
    fun x => Productive.mem_symbols_iff hcf hε hknown
  refine ⟨hn.trans (List.filter_congr fun x hx => ?_), ht,
    hr.trans (List.filter_congr fun rule hrule => ?_)⟩
  · simp [hmem, hx]
  · rw [Bool.eq_iff_iff, Productive.derives_iff, decide_eq_true_eq]
    refine forall₂_congr fun y hy => ?_
    rw [hmem]
    constructor
    · rintro (ha | ⟨-, hp⟩) hn
      · exact absurd ha (not_mem_terminals hn)
      · exact hp
    · intro hp
      exact (right_declared hrule (hε rule hrule) hy).symm.imp_right fun hn => ⟨hn, hp hn⟩

theorem exists_productive (hcf : g.isContextFree = true) (hε : g.NoEmptyRules)
    (hlimit : g.nonterminals.length < limit) (hstart : g.IsProductive g.start) :
    ∃ h, (g.productive limit).result = .ok h := by
  obtain ⟨known, hknown⟩ := Productive.exists_symbols hcf hlimit
  have hbuild := Stage.exists_build .productivity
    (wellFormed_productive hcf (fun x => Productive.mem_symbols_iff hcf hε hknown) hstart)
  exact Traced.exists_result_bind hknown (Traced.exists_result_bind rfl hbuild)

theorem productive_of_not_isProductive (hcf : g.isContextFree = true) (hε : g.NoEmptyRules)
    (hlimit : g.nonterminals.length < limit) (hstart : ¬ g.IsProductive g.start) :
    (g.productive limit).result = .error (.refused .productivity (.undeclaredStart g.start)) := by
  obtain ⟨known, hknown⟩ := Productive.exists_symbols hcf hlimit
  have hdropped : g.start ∉ g.nonterminals.filter (· ∈ known) := by
    simp [Productive.mem_symbols_iff hcf hε hknown, hstart]
  refine Traced.result_bind_eq_error_iff.2 (.inr ⟨known, hknown, ?_⟩)
  exact Traced.result_bind_eq_error_iff.2
    (.inr ⟨_, rfl, Stage.productivity.build_of_start_not_mem hdropped⟩)

/-- **Exactly what is productive is kept**, with more passes than there are nonterminals and where no
right side is empty.  If the start symbol derives a word, these are the nonterminals that derive one,
all terminals, and the rules whose right sides hold no other nonterminals, in the order in which they
were given; the words of the nonterminals that are kept are the same.  If it derives none, it is
missing from what is kept. -/
theorem productive_keeps_productive (hcf : g.isContextFree = true) (hε : g.NoEmptyRules)
    (hlimit : g.nonterminals.length < limit) :
    (g.IsProductive g.start → ∃ h, (g.productive limit).result = .ok h ∧ h.start = g.start ∧
      h.nonterminals = g.nonterminals.filter (g.IsProductive ·) ∧ h.terminals = g.terminals ∧
      (h.rules = g.rules.filter fun rule =>
        ∀ y ∈ rule.right, y ∈ g.nonterminals → g.IsProductive y) ∧
      ∀ x ∈ h.nonterminals, ∀ w, h.Derives [x] w ↔ g.Derives [x] w) ∧
    (¬ g.IsProductive g.start →
      (g.productive limit).result =
        .error (.refused .productivity (.undeclaredStart g.start))) := by
  refine ⟨fun hstart => ?_, productive_of_not_isProductive hcf hε hlimit⟩
  obtain ⟨h, hh⟩ := exists_productive hcf hε hlimit hstart
  obtain ⟨hn, ht, hr⟩ := productive_eq_ok_filter hcf hε hh
  exact ⟨h, hh, (productive_eq_ok hcf hε hh).1, hn, ht, hr,
    fun x _ w => derives_productive_iff hcf hε hh⟩

/-- A grammar in which `C` and `U` derive no word: `C` does not end, and `U` has no rule. -/
def fruitless : Grammar where
  start := ⟨"S"⟩
  nonterminals := [⟨"C"⟩, ⟨"S"⟩, ⟨"A"⟩, ⟨"U"⟩]
  terminals := [⟨"a"⟩, ⟨"c"⟩]
  rules := [.ofHead ⟨"S"⟩ [⟨"A"⟩, ⟨"C"⟩], .ofHead ⟨"S"⟩ [⟨"A"⟩, ⟨"A"⟩], .ofHead ⟨"C"⟩ [⟨"c"⟩, ⟨"C"⟩],
    .ofHead ⟨"A"⟩ [⟨"a"⟩, ⟨"U"⟩], .ofHead ⟨"A"⟩ [⟨"a"⟩]]
  nodup_nonterminals := by decide
  nodup_terminals := by decide
  wellFormed := defect?_eq_none_iff.1 (by decide)

/-- What is kept of `fruitless`; of `endless` nothing can be kept. -/
theorem fruitless_keeps_productive :
    (fruitless.isContextFree = true ∧ fruitless.NoEmptyRules ∧ fruitless.nonterminals.length < 5 ∧
      ∃ h, (fruitless.productive 5).result = .ok h ∧ h.start = fruitless.start ∧
        h.nonterminals = [⟨"S"⟩, ⟨"A"⟩] ∧ h.terminals = [⟨"a"⟩, ⟨"c"⟩] ∧
        h.rules = [.ofHead ⟨"S"⟩ [⟨"A"⟩, ⟨"A"⟩], .ofHead ⟨"A"⟩ [⟨"a"⟩]] ∧
        ∀ x ∈ h.nonterminals, ∀ w, h.Derives [x] w ↔ fruitless.Derives [x] w) ∧
    (endless.isContextFree = true ∧ endless.NoEmptyRules ∧ endless.nonterminals.length < 2 ∧
      (endless.productive 2).result =
        .error (.refused .productivity (.undeclaredStart ⟨"L"⟩))) := by
  constructor
  · have hcf : fruitless.isContextFree = true := by decide
    have hε : fruitless.NoEmptyRules := by unfold NoEmptyRules; decide
    have hlimit : fruitless.nonterminals.length < 5 := by decide
    have hstart : fruitless.IsProductive fruitless.start := by decide
    obtain ⟨h, hh, hs, hn, ht, hr, hwords⟩ := (productive_keeps_productive hcf hε hlimit).1 hstart
    refine ⟨hcf, hε, hlimit, h, hh, hs, hn.trans ?_, ht, hr.trans ?_, hwords⟩
    · decide
    · decide
  · have hcf : endless.isContextFree = true := by decide
    have hε : endless.NoEmptyRules := by unfold NoEmptyRules; decide
    have hlimit : endless.nonterminals.length < 2 := by decide
    have hstart : ¬ endless.IsProductive endless.start := by decide
    exact ⟨hcf, hε, hlimit, (productive_keeps_productive hcf hε hlimit).2 hstart⟩

end Grammar

end NormalGrammar
