import Mathlib.Data.Nat.Nth
import NormalGrammar.Proofs.Acceptance

/-!
# Which helpers are made

Helpers are made sparingly, and their names say in which order.

* The search for a name ends at the least number that is not taken (`Workshop.isLeast_freeNumber`), so
  the helpers are called by the first numbers that the grammar leaves free
  (`Workshop.Numbered.symbol_eq_nth`).
* A new helper has one rule (`Workshop.rulesOf_minted`), with a right side that belongs to no other
  helper, be it new or brought along by the grammar (`Workshop.ne_of_brought`).
* At most one helper is made for each terminal, and one for each symbol of a right side beyond the
  second (`Workshop.length_minted_le`).  Terminals and pairs are counted apart, for a helper for a
  terminal is made once and used by all rules, whereas any rule may need new pairs.
* `normalForm_economy` puts this together.  It holds for all grammars that have a normal form, whether
  they are context free or not.
-/

namespace NormalGrammar

open Sequence Grammar

variable {g h : Grammar} {rule : Rule} {rules out : List Rule}

/-- A number is free if no symbol of the grammar is called by it. -/
def Grammar.IsFree (g : Grammar) (n : Nat) : Prop :=
  Symbol.ofNumber n ∉ g.nonterminals ++ g.terminals

instance (g : Grammar) : DecidablePred g.IsFree := fun _ => inferInstanceAs (Decidable (¬ _))

namespace Workshop

variable {w w' after last : Workshop} {k m : Helper} {x a : Symbol} {hs : List Helper}
  {pattern right : List Symbol}

/-! ## Names -/

/-- **The search for a name ends** at the least number that is not taken. -/
theorem isLeast_freeNumber (taken : List Symbol) (n : Nat) :
    IsLeast {m | n ≤ m ∧ Symbol.ofNumber m ∉ taken} (freeNumber taken taken.length n) := by
  obtain ⟨hle, htaken⟩ := freeNumber_spec taken taken.length n
  refine ⟨⟨hle, ofNumber_freeNumber_not_mem taken n⟩, fun m ⟨hm, hfree⟩ => ?_⟩
  by_contra hlt
  exact hfree (htaken m hm (not_le.1 hlt))

/-- The free names below a number are the names of the first free numbers. -/
theorem freeNames_eq_map_nth (g : Grammar) (n : Nat) : freeNames g n =
    (List.range (Nat.count g.IsFree n)).map fun k => .ofNumber (Nat.nth g.IsFree k) := by
  induction n with
  | zero => rfl
  | succ n ih =>
    by_cases hn : g.IsFree n
    · rw [freeNames_succ hn, ih, Nat.count_succ, if_pos hn, List.range_succ, List.map_append,
        List.map_singleton, Nat.nth_count hn]
    · have hused : freeNames g (n + 1) = freeNames g n := by
        refine freeNames_add 1 fun k hle hlt => ?_
        obtain rfl : k = n := by omega
        exact not_not.1 hn
      rw [hused, ih, Nat.count_succ, if_neg hn, Nat.add_zero]

/-- The helpers are called by the first free numbers. -/
theorem Numbered.symbol_eq_nth (hn : Numbered g w) {i : Nat} (hi : i < w.minted.length) :
    w.minted[i].symbol = .ofNumber (Nat.nth g.IsFree i) := by
  have hsymbols := hn.trans (freeNames_eq_map_nth g w.next)
  have hget := List.getElem_of_eq hsymbols (by simpa using hi)
  simpa using hget

theorem Numbered.nodup (hn : Numbered g w) : (w.minted.map Helper.symbol).Nodup := by
  rw [hn]
  exact (List.nodup_range.map fun _ _ => Symbol.ofNumber_injective).filter _

theorem Numbered.nodup_nonterminals (hn : Numbered g w) : (w.nonterminals g).Nodup :=
  Workshop.nodup_nonterminals hn.nodup fun _ hk hx =>
    (hn.symbol_spec hk).1 (List.mem_append_left _ hx)

/-! ## One rule for each new helper -/

theorem filter_head_eq (hnodup : (hs.map Helper.symbol).Nodup) (hm : m ∈ hs) :
    (hs.map Helper.rule).filter (fun r => decide (r.head? = some m.symbol)) = [m.rule] := by
  induction hs with
  | nil => cases hm
  | cons k hs ih =>
    obtain ⟨hk, hnodup⟩ := List.nodup_cons.1 hnodup
    have hne : ∀ k' ∈ hs, k'.symbol ≠ k.symbol := fun k' hk' he => hk (he ▸ List.mem_map_of_mem hk')
    rcases List.mem_cons.1 hm with rfl | hm
    · rw [List.map_cons, List.filter_cons_of_pos (by simp [Helper.rule]), List.cons_eq_cons,
        List.filter_eq_nil_iff]
      simpa [Helper.rule] using hne
    · rw [List.map_cons, List.filter_cons_of_neg, ih hnodup hm]
      simpa [Helper.rule] using (hne m hm).symm

/-- **A new helper has one rule**, that of its making. -/
theorem rulesOf_minted (hc : ((ofGrammar g).convertAll g g.rules).result = .ok (h.rules, w))
    (hn : Numbered g w) (hm : m ∈ w.minted) : h.rulesOf m.symbol = [m.rule] := by
  have hfree := (hn.symbol_spec hm).1
  have hothers : ∀ rule ∈ g.rules, ∀ right,
      decide ((⟨rule.left, right⟩ : Rule).head? = some m.symbol) = false := by
    intro rule hrule right
    rw [decide_eq_false_iff_not, Rule.head?_eq_some_iff]
    intro (hleft : rule.left = [m.symbol])
    exact hfree ((g.wellFormed.rules_over rule hrule).left_declared _ (by simp [hleft]))
  rw [rulesOf, filter_convertAll hothers hc, minted_ofGrammar]
  exact filter_head_eq hn.nodup hm

/-! ## One helper for each right side -/

/-- What is learned is known, or something like it. -/
theorem exists_known_learn (w : Workshop) (k : Helper) :
    ∃ k' ∈ (w.learn k).known, k'.symbol = k.symbol ∨ k'.pattern = k.pattern := by
  by_cases hsymbol : ∀ k' ∈ w.known, k'.symbol ≠ k.symbol
  · by_cases hpattern : ∀ k' ∈ w.known, k'.pattern ≠ k.pattern
    · rw [known_learn_of_new hsymbol hpattern]
      exact ⟨k, by simp, .inl rfl⟩
    · push Not at hpattern
      obtain ⟨k', hk', he⟩ := hpattern
      exact ⟨k', known_subset_learn hk', .inr he⟩
  · push Not at hsymbol
    obtain ⟨k', hk', he⟩ := hsymbol
    exact ⟨k', known_subset_learn hk', .inl he⟩

theorem known_subset_foldl (w : Workshop) (hs : List Helper) :
    w.known ⊆ (hs.foldl learn w).known := by
  induction hs generalizing w with
  | nil => exact List.Subset.refl _
  | cons k hs ih => exact List.Subset.trans known_subset_learn (ih _)

theorem exists_known_foldl (hk : k ∈ hs) :
    ∃ k' ∈ (hs.foldl learn w).known, k'.symbol = k.symbol ∨ k'.pattern = k.pattern := by
  induction hs generalizing w with
  | nil => cases hk
  | cons m hs ih =>
    rcases List.mem_cons.1 hk with rfl | hk
    · obtain ⟨k', hk', he⟩ := exists_known_learn w k
      exact ⟨k', known_subset_foldl _ hs hk', he⟩
    · exact ih hk

/-- A right side for which a grammar brings a helper along has one at first. -/
theorem exists_known_of_brought (hk : Brought g k) :
    ∃ k' ∈ (ofGrammar g).known, k'.pattern = k.pattern := by
  obtain ⟨k', hk', hlike⟩ := exists_known_foldl (w := ⟨[], [], 0⟩) (mem_brought_iff.2 hk)
  refine ⟨k', hk', hlike.elim (fun hsymbol => ?_) id⟩
  -- the symbol has one rule, so it has the same right side
  obtain ⟨-, hrule', -⟩ := brought_of_mem_known hk'
  obtain ⟨hsingle, hrule, -⟩ := hk
  obtain ⟨r, hr⟩ := List.length_eq_one_iff.1 (beq_iff_eq.1 hsingle)
  have hmem' : k'.rule ∈ g.rulesOf k.symbol := hsymbol ▸ ofHead_mem_rulesOf.2 hrule'
  have hmem : k.rule ∈ g.rulesOf k.symbol := ofHead_mem_rulesOf.2 hrule
  rw [hr, List.mem_singleton] at hmem hmem'
  exact congrArg Rule.right (hmem'.trans hmem.symm)

theorem OneToOne.nodup_minted (o : OneToOne w) (c : Coherent g w) (hn : Numbered g w) :
    (w.minted.map Helper.pattern).Nodup := by
  refine List.Nodup.map_on (fun k hk m hm he => ?_) (.of_map _ hn.nodup)
  exact List.inj_on_of_nodup_map o.patterns (c.minted_subset hk) (c.minted_subset hm) he

/-- **No helper is made for a right side that has one**: not if the grammar brings one along. -/
theorem ne_of_brought (o : OneToOne w) (c : Coherent g w) (hn : Numbered g w)
    (grows : Grows (ofGrammar g) w) (hk : Brought g k) (hm : m ∈ w.minted) :
    m.pattern ≠ k.pattern := by
  intro he
  obtain ⟨k', hk', hpattern⟩ := exists_known_of_brought hk
  obtain rfl : m = k' := List.inj_on_of_nodup_map o.patterns (c.minted_subset hm)
    (grows.known_subset hk') (he.trans hpattern.symm)
  obtain ⟨-, hrule, -⟩ := brought_of_mem_known hk'
  exact (hn.symbol_spec hm).1 (declared_of_mem_rulesOf (ofHead_mem_rulesOf.2 hrule))

/-! ## Counting helpers -/

/-- Whether a helper stands for a terminal. -/
def isForTerminal (g : Grammar) (m : Helper) : Bool :=
  decide (∃ a ∈ g.terminals, m.pattern = [a])

/-- The number of helpers that were made for anything but a terminal. -/
def joins (g : Grammar) (w : Workshop) : Nat := w.minted.countP (! isForTerminal g ·)

/-- At most one is made when a helper is supplied. -/
theorem joins_supply_le (g : Grammar) (w : Workshop) (pattern : List Symbol) :
    (w.supply g pattern).2.joins g ≤ w.joins g + 1 := by
  unfold supply
  split
  · exact Nat.le_succ _
  · simp only [joins, mint, List.countP_append]
    exact Nat.add_le_add_left (List.countP_le_length) _

theorem joins_supply_terminal (w : Workshop) (ha : a ∈ g.terminals) :
    (w.supply g [a]).2.joins g = w.joins g := by
  unfold supply
  split
  · rfl
  · simp [joins, mint, isForTerminal, ha]

theorem joins_isolate (w : Workshop) (xs : List Symbol) :
    (w.isolate g xs).2.joins g = w.joins g := by
  induction xs generalizing w with
  | nil => rfl
  | cons x xs ih =>
    simp only [isolate]
    split
    · rename_i ha
      rw [ih, joins_supply_terminal w (isTerminal_iff.1 ha)]
    · exact ih w

/-- Folding makes one for each symbol beyond the second, at most. -/
theorem joins_fold_le (w : Workshop) (xs : List Symbol) :
    (w.fold g xs).2.joins g ≤ w.joins g + (xs.length - 2) := by
  fun_induction fold g w xs with
  | case1 w x y z rest pair w₁ hpair h w₂ hsupply ih =>
    have hone := joins_supply_le g w₁ pair
    rw [hpair] at ih
    rw [hsupply] at hone
    simp only [List.length_cons] at ih hone ⊢
    omega
  | case2 w xs hshort => exact Nat.le_add_right _ _

theorem joins_convert_le (hc : w.convert g rule = .ok (right, after)) :
    after.joins g ≤ w.joins g + (rule.right.length - 2) := by
  obtain ⟨x, -, ⟨-, -, rfl⟩ | ⟨-, -, -, isolated, w₁, w₂, hi, hf, rfl⟩⟩ := convert_eq_ok_cases hc
  · exact Nat.le_add_right _ _
  · have hlength := length_isolate g w rule.right
    have hisolated := joins_isolate (g := g) w rule.right
    have hfolded := joins_fold_le (g := g) w₁ isolated
    rw [hi] at hlength hisolated
    rw [hf, hlength, hisolated] at hfolded
    split
    · simpa [joins] using hfolded
    · exact hfolded

theorem joins_convertAll_le (hc : (w.convertAll g rules).result = .ok (out, last)) :
    last.joins g ≤ w.joins g + (rules.map fun r => r.right.length - 2).sum := by
  induction rules generalizing w out with
  | nil =>
    obtain ⟨rfl, rfl⟩ := Prod.mk.inj (Except.ok.inj hc)
    exact Nat.le_add_right _ _
  | cons rule rest ih =>
    obtain ⟨right, after, others, hone, hrest, rfl⟩ := convertAll_cons_eq_ok hc
    have hfirst := joins_convert_le hone
    have hothers := ih hrest
    rw [List.map_cons, List.sum_cons]
    omega

/-- **Few helpers are made**: one for each terminal and one for each pair, at most. -/
theorem length_minted_le (hnodup : (w.minted.map Helper.pattern).Nodup) :
    w.minted.length ≤ g.terminals.length + w.joins g := by
  have hterminals : w.minted.countP (isForTerminal g) ≤ g.terminals.length := by
    rw [List.countP_eq_length_filter, ← List.length_map Helper.pattern,
      ← List.length_map (fun a : Symbol => [a])]
    refine List.Nodup.length_le_of_subset (hnodup.sublist (List.filter_sublist.map _)) ?_
    intro p hp
    obtain ⟨k, hk, rfl⟩ := List.mem_map.1 hp
    obtain ⟨a, ha, he⟩ := of_decide_eq_true (List.mem_filter.1 hk).2
    exact he ▸ List.mem_map_of_mem ha
  rw [List.length_eq_countP_add_countP (isForTerminal g), joins]
  simpa using hterminals

end Workshop

namespace Grammar

/-- **Helpers are named and made sparingly.**  A name is searched until one is found, and it is the
least that is not taken.  The nonterminals in normal form are those of the grammar and then the new
helpers, called by the first numbers that are free.  A new helper has one rule.  The right sides of new
helpers are all different, and none is that of a rule in normal form that is the only one for its
symbol.  There are at most as many new helpers as terminals, and symbols beyond the second on right
sides. -/
theorem normalForm_economy (hh : g.normalForm.result = .ok h) :
    (∀ (w : Workshop) (pattern : List Symbol), ∃ n,
        IsLeast {m | w.next ≤ m ∧ Symbol.ofNumber m ∉ w.taken g} n ∧
          (w.mint g pattern).1 = .ofNumber n) ∧
      ∃ made : List Helper,
        h.nonterminals = g.nonterminals ++ made.map Helper.symbol ∧
        (∀ k (hk : k < made.length), made[k].symbol = .ofNumber (Nat.nth g.IsFree k)) ∧
        (∀ m ∈ made, h.rulesOf m.symbol = [m.rule]) ∧
        (made.map Helper.pattern).Nodup ∧
        (∀ x rule, g.rulesOf x = [rule] → g.isNormal rule = true →
          ∀ m ∈ made, m.pattern ≠ rule.right) ∧
        made.length ≤ g.terminals.length + (g.rules.map fun r => r.right.length - 2).sum := by
  refine ⟨fun w pattern => ⟨_, Workshop.isLeast_freeNumber _ _, rfl⟩, ?_⟩
  obtain ⟨⟨rules, w⟩, hc, hb⟩ := Traced.result_bind_eq_ok_iff.1 hh
  have kept := Workshop.kept_numbered g
  have hn : Workshop.Numbered g w := kept.convertAll hc (kept.ofGrammar rfl)
  obtain ⟨-, hnonterminals, -, rfl⟩ :=
    Stage.parts_of_build hn.nodup_nonterminals g.nodup_terminals hb
  have o : w.OneToOne := (Workshop.kept_oneToOne g).convertAll hc (Workshop.oneToOne_ofGrammar g)
  obtain ⟨c, -⟩ := (Workshop.Coherent.ofGrammar g).convertAll (List.Subset.refl _) hc
  have grows := (Workshop.kept_grows g _).convertAll hc (.refl (Workshop.ofGrammar g))
  have hnodup := o.nodup_minted c hn
  refine ⟨w.minted, hnonterminals, fun k hk => hn.symbol_eq_nth hk,
    fun m hm => Workshop.rulesOf_minted hc hn hm, hnodup, ?_, ?_⟩
  · intro x rule hsingle hnormal m hm
    have hrule : rule ∈ g.rulesOf x := by simp [hsingle]
    obtain ⟨left, right⟩ := rule
    obtain ⟨hrule, hleft⟩ := mem_rulesOf_iff_left.1 hrule
    obtain rfl : left = [x] := hleft
    have hbrought : Workshop.Brought g ⟨x, right⟩ :=
      ⟨by simp [Workshop.hasSingleRule, hsingle], hrule, hnormal⟩
    exact Workshop.ne_of_brought o c hn grows hbrought hm
  · have hjoins := Workshop.joins_convertAll_le hc
    have hlength := Workshop.length_minted_le (g := g) hnodup
    have hnone : (Workshop.ofGrammar g).joins g = 0 := by simp [Workshop.joins]
    omega

/-- A grammar that uses two numbers as names, one of them for a helper that it brings along. -/
def counted : Grammar where
  start := ⟨"S"⟩
  nonterminals := [⟨"S"⟩, ⟨"1"⟩]
  terminals := [⟨"0"⟩, ⟨"a"⟩, ⟨"b"⟩]
  rules := [.ofHead ⟨"S"⟩ [⟨"a"⟩, ⟨"b"⟩, ⟨"b"⟩, ⟨"1"⟩], .ofHead ⟨"S"⟩ [⟨"0"⟩], .ofHead ⟨"1"⟩ [⟨"a"⟩]]
  nodup_nonterminals := by decide
  nodup_terminals := by decide
  wellFormed := defect?_eq_none_iff.1 (by decide)

/-- What `counted` becomes: `2` is made once for both `b`, and none is made for `a`. -/
def countedNormal : Grammar where
  start := ⟨"S"⟩
  nonterminals := [⟨"S"⟩, ⟨"1"⟩, ⟨"2"⟩, ⟨"3"⟩, ⟨"4"⟩]
  terminals := [⟨"0"⟩, ⟨"a"⟩, ⟨"b"⟩]
  rules := [.ofHead ⟨"S"⟩ [⟨"1"⟩, ⟨"4"⟩], .ofHead ⟨"2"⟩ [⟨"b"⟩], .ofHead ⟨"3"⟩ [⟨"2"⟩, ⟨"1"⟩],
    .ofHead ⟨"4"⟩ [⟨"2"⟩, ⟨"3"⟩], .ofHead ⟨"S"⟩ [⟨"0"⟩], .ofHead ⟨"1"⟩ [⟨"a"⟩]]
  nodup_nonterminals := by decide
  nodup_terminals := by decide
  wellFormed := defect?_eq_none_iff.1 (by decide)

/-- In `counted`, the helpers `2`, `3` and `4` are named and made sparingly. -/
theorem counted_economy : counted.normalForm.result = .ok countedNormal ∧
    ∃ made : List Helper,
      countedNormal.nonterminals = counted.nonterminals ++ made.map Helper.symbol ∧
      (∀ k (hk : k < made.length), made[k].symbol = .ofNumber (Nat.nth counted.IsFree k)) ∧
      (∀ m ∈ made, countedNormal.rulesOf m.symbol = [m.rule]) ∧
      (made.map Helper.pattern).Nodup ∧
      (∀ x rule, counted.rulesOf x = [rule] → counted.isNormal rule = true →
        ∀ m ∈ made, m.pattern ≠ rule.right) ∧
      made.length ≤ counted.terminals.length +
        (counted.rules.map fun r => r.right.length - 2).sum := by
  have hnormal : counted.normalForm.result = .ok countedNormal := by decide_cbv
  exact ⟨hnormal, (normalForm_economy hnormal).2⟩

end Grammar

end NormalGrammar
