import NormalGrammar.Normal.Productive
import NormalGrammar.Proofs.Simulation

/-!
# The productive part of a grammar

Where no right side is empty, the passes over the rules find exactly the nonterminals that derive a
word (`mem_symbols_iff`), and the rules that are kept are those whose right sides derive one.  So
no word is lost (`derives_productive_iff`), and every nonterminal that is kept derives one in the
grammar that is kept (`allProductive_productive`).
-/

namespace NormalGrammar

open Sequence

namespace Productive

open Grammar

variable {g : Grammar} {known result : List Symbol} {limit passes : Nat} {rule : Rule} {x : Symbol}

/-! ## The passes -/

theorem derives_iff :
    derives g known rule = true ↔ ∀ y ∈ rule.right, y ∈ g.terminals ∨ y ∈ known := by
  simp [derives, List.all_eq_true]

theorem mem_heads_iff :
    x ∈ heads g known ↔ ∃ rule ∈ g.rulesOf x, ∀ y ∈ rule.right, y ∈ g.terminals ∨ y ∈ known := by
  simp only [heads, List.mem_filterMap, List.mem_filter, mem_rulesOf, derives_iff]
  constructor
  · rintro ⟨rule, ⟨hrule, hright⟩, hhead⟩
    exact ⟨rule, ⟨hrule, hhead⟩, hright⟩
  · rintro ⟨rule, ⟨hrule, hhead⟩, hright⟩
    exact ⟨rule, ⟨hrule, hright⟩, hhead⟩

/-- Only nonterminals that derive a word are found. -/
def Sound (g : Grammar) (known : List Symbol) : Prop :=
  ∀ x ∈ known, x ∈ g.nonterminals ∧ g.IsProductive x

theorem Sound.heads (hcf : g.isContextFree = true) (sound : Sound g known) :
    Sound g (heads g known) := by
  intro x hx
  obtain ⟨rule, hrule, hright⟩ := mem_heads_iff.1 hx
  have hall : ∀ y ∈ rule.right, g.IsProductive y := fun y hy =>
    (hright y hy).elim (fun ha => ⟨[y], derives_terminal ha⟩) fun hy => (sound y hy).2
  obtain ⟨w, d⟩ := exists_derives hall
  exact ⟨mem_nonterminals_of_mem_rulesOf hcf hrule, w, d.of_rule hrule⟩

/-- Passes that end have found nothing but productive symbols, and leave no head to find. -/
theorem Sound.explore (hcf : g.isContextFree = true) (sound : Sound g known)
    (h : explore g limit passes known = .ok result) :
    Sound g result ∧ Productive.heads g result ⊆ result := by
  fun_induction Productive.explore g limit passes known with
  | case1 => cases h
  | case2 passes known found hfound =>
    obtain rfl := Except.ok.inj h
    refine ⟨sound, fun x hx => Decidable.byContradiction fun hmiss => ?_⟩
    have : x ∈ found := mem_missing.2 ⟨hx, hmiss⟩
    rw [hfound] at this
    cases this
  | case3 passes known found hfound ih =>
    refine ih (fun x hx => ?_) h
    rcases List.mem_append.1 hx with hx | hx
    · exact sound x hx
    · exact sound.heads hcf x (mem_missing.1 hx).1

/-- Where no right side is empty, the symbols found are the productive nonterminals. -/
theorem mem_symbols_iff (hcf : g.isContextFree = true) (hg : g.NoEmptyRules)
    (h : symbols limit g = .ok result) :
    x ∈ result ↔ x ∈ g.nonterminals ∧ g.IsProductive x := by
  have hnil : Sound g [] := fun x hx => nomatch hx
  obtain ⟨sound, hclosed⟩ :=
    Sound.explore hcf (fun x hx => hnil.heads hcf x (mem_distinct.1 hx)) h
  refine ⟨sound x, fun ⟨hx, w, k, n, d⟩ => ?_⟩
  have key : ∀ {xs w k n}, g.DerivesWith xs w k n →
      ∀ y ∈ xs, y ≠ Symbol.epsilon → y ∈ g.terminals ∨ y ∈ result := by
    intro xs w k n d
    induction d with
    | nil => exact fun y hy => nomatch hy
    | epsilon _ ih => exact List.forall_mem_cons.2 ⟨fun hε => absurd rfl hε, ih⟩
    | terminal ha _ ih => exact List.forall_mem_cons.2 ⟨fun _ => .inl ha, ih⟩
    | @expand y rule _ _ _ _ _ _ _ hrule _ _ ihr ih =>
      refine List.forall_mem_cons.2 ⟨fun _ => .inr (hclosed ?_), ih⟩
      have hmem := (mem_rulesOf.1 hrule).1
      exact mem_heads_iff.2 ⟨rule, hrule, fun z hz =>
        ihr z hz (ne_epsilon_of_mem_right hmem (hg rule hmem) hz)⟩
  exact (key d x (List.mem_singleton_self x) (ne_epsilon_of_mem_nonterminals hx)).resolve_left
    (not_mem_terminals hx)

end Productive

namespace Grammar

variable {g h : Grammar} {limit : Nat} {rule : Rule} {xs w : List Symbol}

/-! ## What is kept -/

/-- The parts that are kept are those that are made of what the search finds. -/
theorem productive_eq_ok_known (hh : (g.productive limit).result = .ok h) :
    ∃ known, Productive.symbols limit g = .ok known ∧ h.start = g.start ∧
      h.nonterminals = g.nonterminals.filter (· ∈ known) ∧ h.terminals = g.terminals ∧
      h.rules = g.rules.filter (Productive.derives g known) := by
  obtain ⟨known, hknown, hb⟩ := Traced.result_bind_eq_ok_iff.1 hh
  obtain ⟨-, -, hb⟩ := Traced.result_bind_eq_ok_iff.1 hb
  exact ⟨known, hknown,
    Stage.parts_of_build (g.nodup_nonterminals.filter _) g.nodup_terminals hb⟩

/-- The parts of the grammar that is kept: productive nonterminals, all terminals, and the rules
whose right sides derive a word. -/
theorem productive_eq_ok (hcf : g.isContextFree = true) (hg : g.NoEmptyRules)
    (hh : (g.productive limit).result = .ok h) :
    h.start = g.start ∧ (∀ x, x ∈ h.nonterminals ↔ x ∈ g.nonterminals ∧ g.IsProductive x) ∧
      h.terminals = g.terminals ∧
      ∀ rule, rule ∈ h.rules ↔ rule ∈ g.rules ∧ ∀ y ∈ rule.right, g.IsProductive y := by
  obtain ⟨known, hknown, hs, hn, ht, hr⟩ := productive_eq_ok_known hh
  have hmem : ∀ x, x ∈ known ↔ x ∈ g.nonterminals ∧ g.IsProductive x :=
    fun x => Productive.mem_symbols_iff hcf hg hknown
  refine ⟨hs, fun x => ?_, ht, fun rule => ?_⟩
  · simp only [hn, List.mem_filter, decide_eq_true_eq, hmem]
    exact ⟨fun h => h.2, fun h => ⟨h.1, h⟩⟩
  · rw [hr, List.mem_filter, Productive.derives_iff]
    refine and_congr_right fun hrule => forall₂_congr fun y hy => ?_
    rw [hmem]
    constructor
    · rintro (ha | ⟨-, hy⟩)
      · exact ⟨[y], derives_terminal ha⟩
      · exact hy
    · exact fun hp => (right_declared hrule (hg rule hrule) hy).symm.imp_right fun hn => ⟨hn, hp⟩

theorem isContextFree_productive (hcf : g.isContextFree = true) (hg : g.NoEmptyRules)
    (hh : (g.productive limit).result = .ok h) : h.isContextFree = true := by
  obtain ⟨-, hn, -, hr⟩ := productive_eq_ok hcf hg hh
  refine isContextFree_iff.2 fun rule hrule => ?_
  obtain ⟨hrule, hright⟩ := (hr rule).1 hrule
  obtain ⟨x, hx, hleft⟩ := isContextFree_iff.1 hcf rule hrule
  obtain ⟨w, d⟩ := exists_derives hright
  exact ⟨x, (hn x).2 ⟨hx, w, d.of_rule (mem_rulesOf_iff_left.2 ⟨hrule, hleft⟩)⟩, hleft⟩

/-- **No word is lost** with the rules that derive none. -/
theorem derives_productive_iff (hcf : g.isContextFree = true) (hg : g.NoEmptyRules)
    (hh : (g.productive limit).result = .ok h) : h.Derives xs w ↔ g.Derives xs w := by
  obtain ⟨-, -, ht, hr⟩ := productive_eq_ok hcf hg hh
  constructor
  · exact Derives.mono (fun a ha => ht ▸ ha) fun rule hrule => ((hr rule).1 hrule).1
  · refine fun d => d.replay (fun a ha => ht ▸ ha) fun x rule v hmem dg dv => dv.of_rule ?_
    obtain ⟨hrule, hleft⟩ := mem_rulesOf_iff_left.1 hmem
    exact mem_rulesOf_iff_left.2 ⟨(hr rule).2 ⟨hrule, fun y hy => dg.isProductive hy⟩, hleft⟩

/-- **Every nonterminal that is kept derives a word**, by the rules that are kept. -/
theorem allProductive_productive (hcf : g.isContextFree = true) (hg : g.NoEmptyRules)
    (hh : (g.productive limit).result = .ok h) : h.AllProductive := by
  intro x hx
  obtain ⟨-, hn, -, -⟩ := productive_eq_ok hcf hg hh
  obtain ⟨w, d⟩ := ((hn x).1 hx).2
  exact ⟨w, (derives_productive_iff hcf hg hh).2 d⟩

end Grammar

end NormalGrammar
