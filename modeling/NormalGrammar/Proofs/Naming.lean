import NormalGrammar.Proofs.Helpers
import NormalGrammar.Proofs.NormalSteps

/-!
# What work on rules keeps

What learning and making helpers keep, all work on rules keeps (`Workshop.Kept`).

* Work adds helpers, at most (`Workshop.Grows`, `kept_grows`), and their rules
  (`Workshop.filter_convertAll`).
* No two helpers are for the same right side, and none is for two (`Workshop.OneToOne`,
  `kept_oneToOne`).
* New helpers are called by the numbers that the grammar leaves free, in order
  (`Workshop.Numbered`, `kept_numbered`).
-/

namespace NormalGrammar

theorem Symbol.ofNumber_ne_epsilon (n : Nat) : ofNumber n ≠ epsilon := by
  intro h
  have hname : n.repr.toList = ['ε'] := congrArg (fun x => x.name.toList) h
  rw [Nat.toList_repr] at hname
  have hmem : 'ε' ∈ Nat.toDigits 10 n := by simp [hname]
  have hdigit := Nat.isDigit_of_mem_toDigits (by decide) (by decide) hmem
  exact absurd hdigit (by decide)

namespace Workshop

variable {g : Grammar} {w w' after last : Workshop} {rules out : List Rule} {rule : Rule}
  {right taken : List Symbol} {P : Workshop → Prop}

/-! ## What work keeps -/

/-- A property of workshops that is kept when a helper is learned or made. -/
structure Kept (g : Grammar) (P : Workshop → Prop) : Prop where
  learn : ∀ w k, P w → P (w.learn k)
  mint : ∀ w pattern, P w → P (w.mint g pattern).2

theorem Kept.supply (kept : Kept g P) (pattern : List Symbol) (hw : P w) :
    P (w.supply g pattern).2 := by
  unfold Workshop.supply
  split
  · exact hw
  · exact kept.mint w pattern hw

theorem Kept.isolate (kept : Kept g P) (xs : List Symbol) (hw : P w) :
    P (w.isolate g xs).2 := by
  induction xs generalizing w with
  | nil => exact hw
  | cons x xs ih =>
    simp only [Workshop.isolate]
    split
    · exact ih (kept.supply [x] hw)
    · exact ih hw

theorem Kept.fold (kept : Kept g P) (xs : List Symbol) (hw : P w) : P (w.fold g xs).2 := by
  fun_induction Workshop.fold g w xs with
  | case1 w x y z rest pair w₁ hpair h w₂ hsupply ih =>
    have hkept := kept.supply pair (hpair ▸ ih hw)
    rwa [hsupply] at hkept
  | case2 => exact hw

theorem Kept.convert (kept : Kept g P) (hc : w.convert g rule = .ok (right, after)) (hw : P w) :
    P after := by
  obtain ⟨x, -, ⟨-, -, rfl⟩ | ⟨-, -, -, isolated, w₁, w₂, hi, hf, rfl⟩⟩ := convert_eq_ok_cases hc
  · exact hw
  · have hisolated := kept.isolate rule.right hw
    rw [hi] at hisolated
    have hfolded := kept.fold isolated hisolated
    rw [hf] at hfolded
    split
    · exact kept.learn _ _ hfolded
    · exact hfolded

/-- What learning and making keep is kept when all rules are converted. -/
theorem Kept.convertAll (kept : Kept g P)
    (hc : (w.convertAll g rules).result = .ok (out, last)) (hw : P w) : P last := by
  induction rules generalizing w out with
  | nil =>
    obtain ⟨rfl, rfl⟩ := Prod.mk.inj (Except.ok.inj hc)
    exact hw
  | cons rule rest ih =>
    obtain ⟨right, after, others, hone, hrest, rfl⟩ := convertAll_cons_eq_ok hc
    exact ih hrest (kept.convert hone hw)

theorem Kept.ofGrammar (kept : Kept g P) (h : P ⟨[], [], 0⟩) : P (ofGrammar g) :=
  ofGrammar_induction h fun w k _ hw => kept.learn w k hw

/-! ## What work adds -/

/-- Helpers have been added to a workshop, at most. -/
structure Grows (w w' : Workshop) : Prop where
  known_subset : w.known ⊆ w'.known
  minted_extends : w.minted <+: w'.minted

theorem Grows.refl (w : Workshop) : Grows w w := ⟨List.Subset.refl _, List.prefix_refl _⟩

/-- All work adds helpers, at most. -/
theorem kept_grows (g : Grammar) (w : Workshop) : Kept g (Grows w) where
  learn := fun w' k grows =>
    { known_subset := List.Subset.trans grows.known_subset known_subset_learn
      minted_extends := by simpa using grows.minted_extends }
  mint := fun w' pattern grows =>
    { known_subset := List.Subset.trans grows.known_subset known_subset_learn
      minted_extends := grows.minted_extends.trans (List.prefix_append _ _) }

/-- **Among the rules in the end, those that none of the given rules can become** are the rules of
the helpers that were made, in the order in which they were made. -/
theorem filter_convertAll {p : Rule → Bool}
    (hp : ∀ rule ∈ rules, ∀ right, p ⟨rule.left, right⟩ = false)
    (hc : (w.convertAll g rules).result = .ok (out, last)) :
    out.filter p = ((last.minted.drop w.minted.length).map Helper.rule).filter p := by
  induction rules generalizing w out with
  | nil =>
    obtain ⟨rfl, rfl⟩ := Prod.mk.inj (Except.ok.inj hc)
    simp
  | cons rule rest ih =>
    obtain ⟨hrule, hrest⟩ := List.forall_mem_cons.1 hp
    obtain ⟨right, after, others, hone, hall, rfl⟩ := convertAll_cons_eq_ok hc
    obtain ⟨made, hmade⟩ := ((kept_grows g w).convert hone (.refl w)).minted_extends
    obtain ⟨later, hlater⟩ := ((kept_grows g after).convertAll hall (.refl after)).minted_extends
    have hothers := ih hrest hall
    rw [← hlater, List.drop_left] at hothers
    rw [List.cons_append, List.filter_cons_of_neg (by simp [hrule]), List.filter_append, hothers,
      ← List.filter_append, ← List.map_append, ← hlater, ← hmade, List.append_assoc, List.drop_left,
      List.drop_left]

/-! ## A helper for each right side -/

/-- A right side has one helper, and a helper one right side. -/
structure OneToOne (w : Workshop) : Prop where
  symbols : (w.known.map Helper.symbol).Nodup
  patterns : (w.known.map Helper.pattern).Nodup

/-- A helper is learned only if its symbol and its right side are new. -/
theorem OneToOne.learn (o : OneToOne w) (k : Helper) : OneToOne (w.learn k) := by
  unfold Workshop.learn
  split
  · exact o
  · rename_i hnew
    rw [Bool.or_eq_true, not_or, Option.not_isSome_iff_eq_none, Option.not_isSome_iff_eq_none,
      patternOf?_eq_none_iff, helperFor?_eq_none_iff] at hnew
    obtain ⟨hsymbol, hpattern⟩ := hnew
    refine ⟨?_, ?_⟩
    · rw [List.map_append, List.nodup_append]
      refine ⟨o.symbols, by simp, ?_⟩
      simpa using hsymbol
    · rw [List.map_append, List.nodup_append]
      refine ⟨o.patterns, by simp, ?_⟩
      simpa using hpattern

/-- **No two helpers are for the same right side**, and none is for two, at all times. -/
theorem kept_oneToOne (g : Grammar) : Kept g OneToOne where
  learn := fun _ k o => o.learn k
  mint := fun _ _ o => ⟨(o.learn _).symbols, (o.learn _).patterns⟩

theorem oneToOne_ofGrammar (g : Grammar) : OneToOne (ofGrammar g) :=
  (kept_oneToOne g).ofGrammar ⟨List.nodup_nil, List.nodup_nil⟩

/-! ## Names are numbers -/

/-- The search goes up, and all numbers that it passes are taken. -/
theorem freeNumber_spec (taken : List Symbol) (tries n : Nat) :
    n ≤ freeNumber taken tries n ∧
      ∀ m, n ≤ m → m < freeNumber taken tries n → Symbol.ofNumber m ∈ taken := by
  fun_induction freeNumber taken tries n with
  | case1 n => exact ⟨Nat.le_refl n, fun m _ _ => by omega⟩
  | case2 tries n hn ih =>
    obtain ⟨hle, htaken⟩ := ih
    refine ⟨by omega, fun m hm hlt => ?_⟩
    by_cases h : m = n
    · rwa [h]
    · exact htaken m (by omega) hlt
  | case3 => exact ⟨Nat.le_refl _, fun m _ _ => by omega⟩

/-- The numbers below `n` that a grammar does not use as names, as symbols. -/
def freeNames (g : Grammar) (n : Nat) : List Symbol :=
  ((List.range n).map Symbol.ofNumber).filter (· ∉ g.nonterminals ++ g.terminals)

theorem mem_taken_iff {x : Symbol} : x ∈ w.taken g ↔
    x ∈ g.nonterminals ++ g.terminals ∨ x ∈ w.minted.map Helper.symbol := by
  simp only [taken, nonterminals, List.mem_append]
  rw [or_right_comm]

/-- The helpers that were made are called by the free numbers below `next`, in order. -/
def Numbered (g : Grammar) (w : Workshop) : Prop :=
  w.minted.map Helper.symbol = freeNames g w.next

theorem freeNames_add {m : Nat} (d : Nat)
    (h : ∀ k, m ≤ k → k < m + d → Symbol.ofNumber k ∈ g.nonterminals ++ g.terminals) :
    freeNames g (m + d) = freeNames g m := by
  induction d with
  | zero => rfl
  | succ d ih =>
    have hlast := h (m + d) (by omega) (by omega)
    rw [← ih fun k hk hlt => h k hk (by omega), ← Nat.add_assoc, freeNames, freeNames,
      List.range_succ, List.map_append, List.filter_append, List.append_right_eq_self,
      List.filter_eq_nil_iff]
    intro x hx
    rw [List.map_singleton, List.mem_singleton] at hx
    rw [hx, decide_eq_true_eq]
    exact not_not_intro hlast

theorem freeNames_succ {n : Nat} (h : Symbol.ofNumber n ∉ g.nonterminals ++ g.terminals) :
    freeNames g (n + 1) = freeNames g n ++ [Symbol.ofNumber n] := by
  rw [freeNames, freeNames, List.range_succ, List.map_append, List.filter_append,
    List.append_cancel_left_eq]
  simpa using h

/-- **New helpers are numbered**: each gets the smallest number that is free and was not used. -/
theorem kept_numbered (g : Grammar) : Kept g (Numbered g) where
  learn := by
    intro w k hw
    unfold learn
    split
    · exact hw
    · exact hw
  mint := by
    intro w pattern hw
    have hfree := ofNumber_freeNumber_not_mem (w.taken g) w.next
    obtain ⟨hle, htaken⟩ := freeNumber_spec (w.taken g) (w.taken g).length w.next
    simp only [mint, Numbered, List.map_append, List.map_singleton]
    rw [hw]
    generalize freeNumber (w.taken g) (w.taken g).length w.next = n at *
    have hdeclared : Symbol.ofNumber n ∉ g.nonterminals ++ g.terminals :=
      fun h => hfree (mem_taken_iff.2 (.inl h))
    obtain ⟨d, rfl⟩ := Nat.exists_eq_add_of_le hle
    rw [freeNames_succ hdeclared, freeNames_add d]
    intro k hk hlt
    -- what was made before is called by a smaller number
    have hold : Symbol.ofNumber k ∉ w.minted.map Helper.symbol := by
      rw [hw]
      intro h
      obtain ⟨i, hi, he⟩ := List.mem_map.1 (List.mem_filter.1 h).1
      have := Symbol.ofNumber_injective he
      rw [List.mem_range] at hi
      omega
    exact (mem_taken_iff.1 (htaken k hk hlt)).resolve_right hold

end Workshop

end NormalGrammar
