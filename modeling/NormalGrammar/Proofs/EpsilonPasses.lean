import Mathlib
import NormalGrammar.Proofs.CutOff
import NormalGrammar.Proofs.Outcomes

/-!
# How many passes removing empty right sides takes

Passes are made over rules that the passes before them added, and empty right sides are removed that
came up only on the way.  Still the work is bounded beforehand.

* A nonterminal gets an empty right side at most once, as it does not get another when it has lost
  one.  So the number of those that are there or may still come (`pending`) goes down with each
  removal (`pending_erase_lt`) and never goes up (`pending_add_le`).
* While the occurrences of a symbol are dropped, each pass is done with the rules that had the most
  of them (`SettledAbove.add`), so there is one pass for each occurrence that a right side can have,
  and one that finds nothing.
* `Grammar.exists_epsilonFree_of_le` multiplies the two numbers.
-/

namespace NormalGrammar

open Sequence Grammar

variable {g h : Grammar} {rules : List Rule} {rule r : Rule} {eliminated : List Symbol} {x : Symbol}
  {limit passes bound count : Nat}

/-- The length of the longest right side. -/
def Grammar.longestRight (g : Grammar) : Nat :=
  (g.rules.map fun rule => rule.right.length).foldr max 0

theorem Grammar.length_le_longestRight (hrule : rule ∈ g.rules) :
    rule.right.length ≤ g.longestRight :=
  List.le_max_of_le (List.mem_map_of_mem hrule) (Nat.le_refl _)

/-- What does not fail but by giving up, and does not give up, returns something. -/
theorem OnlyUnsettled.exists_ok {α : Type} {stage : Stage} {t : Staged α}
    (ht : OnlyUnsettled stage limit t) (hsettles : Settles t) : ∃ a, t.result = .ok a := by
  cases hresult : t.result with
  | ok a => exact ⟨a, rfl⟩
  | error e =>
    rw [ht e hresult] at hresult
    exact absurd hresult (hsettles stage limit)

namespace EpsilonFree

/-! ## The rules at hand -/

/-- Every rule rewrites a nonterminal, either to the empty word or to at most `bound` symbols, of
which none is the empty word. -/
def Bounded (g : Grammar) (bound : Nat) (rules : List Rule) : Prop :=
  ∀ rule ∈ rules, (∃ x ∈ g.nonterminals, rule.left = [x]) ∧
    (rule.right = [Symbol.epsilon] ∨
      Symbol.epsilon ∉ rule.right ∧ rule.right.length ≤ bound)

theorem bounded_rules (hcf : g.isContextFree = true) : Bounded g g.longestRight g.rules := by
  intro rule hrule
  refine ⟨isContextFree_iff.1 hcf rule hrule, ?_⟩
  by_cases hε : rule.right = [Symbol.epsilon]
  · exact .inl hε
  · exact .inr ⟨fun hmem => ne_epsilon_of_mem_right hrule hε hmem rfl, length_le_longestRight hrule⟩

theorem Bounded.erase (hb : Bounded g bound rules) (rule : Rule) :
    Bounded g bound (rules.erase rule) :=
  fun r hr => hb r (List.mem_of_mem_erase hr)

theorem Bounded.add (hb : Bounded g bound rules) {more : List Rule}
    (hmore : ∀ r ∈ more, ∃ rule ∈ rules, r ∈ variants eliminated x rule) :
    Bounded g bound (rules ++ more) := by
  intro r hr
  rcases List.mem_append.1 hr with hr | hr
  · exact hb r hr
  · obtain ⟨rule, hrule, hv⟩ := hmore r hr
    obtain ⟨hhead, hright⟩ := hb rule hrule
    obtain ⟨hleft, u, hu, hcase⟩ := mem_variants_iff.1 hv
    rw [hleft]
    refine ⟨hhead, ?_⟩
    rcases hcase with ⟨hne, rfl⟩ | ⟨-, hε, -⟩
    · have hlength := length_of_mem_droppingOne hu
      rcases hright with hε | ⟨hε, hbound⟩
      · rw [hε, List.length_singleton, Nat.lt_one_iff, List.length_eq_zero_iff] at hlength
        exact absurd hlength hne
      · refine .inr ⟨fun hmem => hε ((drops_of_mem_droppingOne hu).subset hmem), ?_⟩
        omega
    · exact .inl hε

theorem Bounded.count_le (hb : Bounded g bound rules) (hrule : rule ∈ rules)
    (hx : x ∈ g.nonterminals) : rule.right.count x ≤ bound := by
  rcases (hb rule hrule).2 with hε | ⟨-, hlength⟩
  · have hne : Symbol.epsilon ≠ x := fun he => ne_epsilon_of_mem_nonterminals hx he.symm
    rw [hε, List.count_singleton, if_neg (by simpa using hne)]
    exact Nat.zero_le bound
  · exact List.count_le_length.trans hlength

/-! ## Empty right sides that are there or may come -/

/-- The nonterminals that may still get an empty right side: they have none, and have lost none. -/
def candidates (g : Grammar) (rules : List Rule) (eliminated : List Symbol) : List Symbol :=
  g.nonterminals.filter fun x =>
    decide (x ∉ eliminated ∧ Rule.ofHead x [Symbol.epsilon] ∉ rules)

/-- How many empty right sides are there or may still come. -/
def pending (g : Grammar) (rules : List Rule) (eliminated : List Symbol) : Nat :=
  rules.countP Rule.isEpsilon + (candidates g rules eliminated).length

theorem mem_candidates_iff : x ∈ candidates g rules eliminated ↔
    x ∈ g.nonterminals ∧ x ∉ eliminated ∧ Rule.ofHead x [Symbol.epsilon] ∉ rules := by
  simp [candidates]

theorem nodup_candidates : (candidates g rules eliminated).Nodup := g.nodup_nonterminals.filter _

theorem pending_le (g : Grammar) :
    pending g g.rules [] ≤ g.rules.countP Rule.isEpsilon + g.nonterminals.length :=
  Nat.add_le_add_left (List.length_filter_le _ _) _

/-- **A removal is one of them**: the nonterminal is not given an empty right side again. -/
theorem pending_erase_lt (hrule : rule ∈ rules) (hε : rule.right = [Symbol.epsilon])
    (hhead : rule.head? = some x) :
    pending g (rules.erase rule) (x :: eliminated) < pending g rules eliminated := by
  have hempty : rule.isEpsilon = true := Rule.isEpsilon_iff.2 hε
  have hpos : 0 < rules.countP Rule.isEpsilon := List.countP_pos_iff.2 ⟨rule, hrule, hempty⟩
  have hcount : (rules.erase rule).countP Rule.isEpsilon = rules.countP Rule.isEpsilon - 1 := by
    rw [List.countP_erase, if_pos ⟨hrule, hempty⟩]
  have hsub :
      candidates g (rules.erase rule) (x :: eliminated) ⊆ candidates g rules eliminated := by
    intro y hy
    obtain ⟨hyn, hnew, hnone⟩ := mem_candidates_iff.1 hy
    rw [List.mem_cons, not_or] at hnew
    obtain ⟨hyx, hnew⟩ := hnew
    refine mem_candidates_iff.2 ⟨hyn, hnew, fun hmem => hnone ?_⟩
    refine (List.mem_erase_of_ne fun he => hyx ?_).2 hmem
    rw [← he, Rule.head?_ofHead] at hhead
    exact Option.some.inj hhead
  have hlength := nodup_candidates.length_le_of_subset hsub
  unfold pending
  omega

/-- An empty right side is added only for a nonterminal that has none and has lost none. -/
theorem Bounded.exists_candidate (hb : Bounded g bound rules) (hrule : rule ∈ rules)
    (hr : r ∈ variants eliminated x rule) (hε : r.right = [Symbol.epsilon]) (hnew : r ∉ rules) :
    ∃ y ∈ candidates g rules eliminated, r = .ofHead y [Symbol.epsilon] := by
  obtain ⟨⟨y, hy, hyl⟩, hright⟩ := hb rule hrule
  obtain ⟨hleft, u, hu, hcase⟩ := mem_variants_iff.1 hr
  have hr' : r = .ofHead y [Symbol.epsilon] := by rw [Rule.ofHead, ← hyl, ← hleft, ← hε]
  refine ⟨y, mem_candidates_iff.2 ⟨hy, ?_, hr' ▸ hnew⟩, hr'⟩
  rcases hcase with ⟨hne, hru⟩ | ⟨-, -, hfresh⟩
  · -- the empty word is not left of a right side when a symbol is left out
    have hmem : Symbol.epsilon ∈ rule.right := by
      refine (drops_of_mem_droppingOne hu).subset ?_
      rw [← hru, hε]
      exact List.mem_singleton_self _
    have hlength := length_of_mem_droppingOne hu
    rcases hright with hright | ⟨hnone, -⟩
    · rw [hright, List.length_singleton, Nat.lt_one_iff, List.length_eq_zero_iff] at hlength
      exact absurd hlength hne
    · exact absurd hmem hnone
  · exact fun he => hfresh ⟨y, by simp [hyl], he⟩

/-- **What comes was one of them**, so their number does not go up. -/
theorem pending_add_le (hb : Bounded g bound rules) {more : List Rule} (hnodup : more.Nodup)
    (hmore : ∀ r ∈ more, r ∉ rules ∧ ∃ rule ∈ rules, r ∈ variants eliminated x rule) :
    pending g (rules ++ more) eliminated ≤ pending g rules eliminated := by
  let emptyOf : Symbol → Rule := fun y => .ofHead y [Symbol.epsilon]
  have hinj : Function.Injective emptyOf := fun y z he => (Rule.ofHead_inj.1 he).1
  -- the empty right sides that come, and those that may come later, could come before
  have hall : (more.filter Rule.isEpsilon ++
      (candidates g (rules ++ more) eliminated).map emptyOf).Nodup := by
    refine (hnodup.filter _).append (nodup_candidates.map hinj) fun r hr hr' => ?_
    obtain ⟨y, hy, rfl⟩ := List.mem_map.1 hr'
    obtain ⟨-, -, hnone⟩ := mem_candidates_iff.1 hy
    exact hnone (List.mem_append_right _ (List.mem_filter.1 hr).1)
  have hsub : more.filter Rule.isEpsilon ++
      (candidates g (rules ++ more) eliminated).map emptyOf ⊆
        (candidates g rules eliminated).map emptyOf := by
    intro r hr
    rcases List.mem_append.1 hr with hr | hr
    · obtain ⟨hr, hε⟩ := List.mem_filter.1 hr
      obtain ⟨hnew, rule, hrule, hv⟩ := hmore r hr
      obtain ⟨y, hy, rfl⟩ := hb.exists_candidate hrule hv (Rule.isEpsilon_iff.1 hε) hnew
      exact List.mem_map_of_mem hy
    · obtain ⟨y, hy, rfl⟩ := List.mem_map.1 hr
      obtain ⟨hyn, hnew, hnone⟩ := mem_candidates_iff.1 hy
      have hnone' : Rule.ofHead y [Symbol.epsilon] ∉ rules := fun hmem =>
        hnone (List.mem_append_left _ hmem)
      exact List.mem_map_of_mem (mem_candidates_iff.2 ⟨hyn, hnew, hnone'⟩)
  have hlength := hall.length_le_of_subset hsub
  rw [List.length_append, List.length_map, List.length_map] at hlength
  rw [pending, pending, List.countP_append, List.countP_eq_length_filter (l := more)]
  omega

/-! ## Passes for one symbol -/

/-- Where the symbol at hand stands more than `count` times, all variants are there. -/
def SettledAbove (count : Nat) (s : State) : Prop :=
  ∀ rule ∈ s.rules, count < rule.right.count s.current →
    ∀ r ∈ variants s.eliminated s.current rule, r ∈ s.rules

theorem State.mem_additions {s : State} (hr : r ∈ s.additions) :
    r ∉ s.rules ∧ ∃ rule ∈ s.rules, r ∈ variants s.eliminated s.current rule := by
  obtain ⟨hr, hnew⟩ := mem_missing.1 hr
  exact ⟨hnew, List.mem_flatMap.1 hr⟩

theorem State.nodup_additions (s : State) : s.additions.Nodup := nodup_distinct _

theorem SettledAbove.additions_eq_nil {s : State} (hs : SettledAbove 0 s) : s.additions = [] := by
  refine List.eq_nil_iff_forall_not_mem.2 fun r hr => ?_
  obtain ⟨hnew, rule, hrule, hv⟩ := s.mem_additions hr
  obtain ⟨-, u, hu, -⟩ := mem_variants_iff.1 hv
  have hcount := count_of_mem_droppingOne hu
  exact hnew (hs rule hrule (by omega) r hv)

/-- **A pass settles the rules with the most occurrences** among those that are left. -/
theorem SettledAbove.add {s : State} (hs : SettledAbove (count + 1) s)
    (hε : s.current ≠ Symbol.epsilon) :
    SettledAbove count { s with rules := s.rules ++ s.additions } := by
  intro rule hrule hcount r hr
  have hcount : count < rule.right.count s.current := hcount
  by_cases hnew : r ∈ s.rules
  · exact List.mem_append_left _ hnew
  rcases List.mem_append.1 hrule with hrule | hrule
  · have hmem : r ∈ s.rules.flatMap (variants s.eliminated s.current) :=
      List.mem_flatMap.2 ⟨rule, hrule, hr⟩
    exact List.mem_append_right _ (mem_missing.2 ⟨hmem, hnew⟩)
  · -- what was added has fewer occurrences than the rule that it was made of
    exfalso
    obtain ⟨hmissing, origin, horigin, hv⟩ := s.mem_additions hrule
    obtain ⟨-, u, hu, ⟨-, hright⟩ | ⟨-, hright, -⟩⟩ := mem_variants_iff.1 hv
    · rw [hright] at hcount
      have hdrop := count_of_mem_droppingOne hu
      exact hmissing (hs origin horigin (by omega) rule hv)
    · rw [hright, List.count_singleton, if_neg (by simpa using hε.symm)] at hcount
      omega

/-! ## All passes -/

/-- Going on to the next empty right side: the next symbol is a nonterminal, which stands nowhere
more often than the bound says, and one fewer empty right side is pending. -/
theorem Bounded.next (hb : Bounded g bound rules) {t : State}
    (ht : (State.next rules eliminated).result = .ok (some t)) :
    Bounded g bound t.rules ∧ t.current ∈ g.nonterminals ∧ SettledAbove bound t ∧
      pending g t.rules t.eliminated < pending g rules eliminated := by
  obtain ⟨rule, hrule, hε, x, hhead, rfl⟩ := next_eq_some ht
  have hx : x ∈ g.nonterminals := by
    obtain ⟨⟨y, hy, hleft⟩, -⟩ := hb rule hrule
    rw [Rule.head?_eq_some_iff, hleft, List.singleton_inj] at hhead
    exact hhead ▸ hy
  have hb' := hb.erase rule
  exact ⟨hb', hx, fun r hr hcount => absurd (hb'.count_le hr hx) (Nat.not_le.2 hcount),
    pending_erase_lt hrule hε hhead⟩

/-- **Enough passes**: for each empty right side that is there or may come, as many as it takes to
drop all occurrences of a symbol, and for the symbol at hand those that are left. -/
theorem State.settles_run {s : State} (hb : Bounded g bound s.rules)
    (hcurrent : s.current ∈ g.nonterminals) (hs : SettledAbove count s)
    (hpasses : pending g s.rules s.eliminated * (bound + 1) + count < passes) :
    Settles (s.run limit passes) := by
  induction passes generalizing s count with
  | zero => omega
  | succ passes ih =>
    refine Settles.bind (.of_ok rfl) fun _ _ => ?_
    split
    · refine Settles.bind (settles_next _ _) fun o ho => ?_
      cases o with
      | none => exact .of_ok rfl
      | some t =>
        -- one empty right side fewer is pending, which leaves the passes for the next symbol
        obtain ⟨hb', hcurrent', hs', hlt⟩ := hb.next ho
        have hmul := Nat.mul_le_mul_right (bound + 1) hlt
        rw [Nat.succ_mul] at hmul
        exact ih hb' hcurrent' hs' (by omega)
    · rename_i hadditions
      have hvariants : ∀ r ∈ s.additions, ∃ rule ∈ s.rules,
          r ∈ variants s.eliminated s.current rule := fun r hr => (s.mem_additions hr).2
      have hle := pending_add_le hb s.nodup_additions fun _ => s.mem_additions
      have hmul := Nat.mul_le_mul_right (bound + 1) hle
      -- no more is pending than before, and one occurrence fewer may be left
      cases count with
      | zero => exact absurd hs.additions_eq_nil hadditions
      | succ count =>
        have hε := ne_epsilon_of_mem_nonterminals hcurrent
        refine ih (hb.add hvariants) hcurrent (hs.add hε) ?_
        show pending g (s.rules ++ s.additions) s.eliminated * (bound + 1) + count < passes
        omega

end EpsilonFree

namespace Grammar

open EpsilonFree

/-- **Removing empty right sides is done within a bound**: as many passes are enough as there are
empty right sides and nonterminals together, times one more than the length of the longest right
side. -/
theorem exists_epsilonFree_of_le (hcf : g.isContextFree = true)
    (hlimit : (g.rules.countP Rule.isEpsilon + g.nonterminals.length) * (g.longestRight + 1) ≤
      limit) :
    ∃ h, (g.epsilonFree limit).result = .ok h := by
  refine (onlyUnsettled_epsilonFree hcf).exists_ok ?_
  refine Settles.bind (Settles.bind (State.settles_next _ _) fun o ho => ?_) fun _ _ =>
    .build _ _ _ _ _
  cases o with
  | none => exact .of_ok rfl
  | some s =>
    obtain ⟨hb, hcurrent, hs, hlt⟩ := (bounded_rules hcf).next ho
    refine State.settles_run hb hcurrent hs ?_
    calc pending g s.rules s.eliminated * (g.longestRight + 1) + g.longestRight
      _ < (pending g s.rules s.eliminated + 1) * (g.longestRight + 1) := by
          rw [Nat.succ_mul]
          omega
      _ ≤ pending g g.rules [] * (g.longestRight + 1) := Nat.mul_le_mul_right _ hlt
      _ ≤ _ := Nat.mul_le_mul_right _ (pending_le g)
      _ ≤ limit := hlimit

/-- Three nonterminals that come to be nullable one after the other. -/
def cascade : Grammar where
  start := ⟨"S"⟩
  nonterminals := [⟨"S"⟩, ⟨"U"⟩, ⟨"V"⟩]
  terminals := [⟨"c"⟩]
  rules := [.ofHead ⟨"S"⟩ [⟨"U"⟩, ⟨"c"⟩, ⟨"U"⟩], .ofHead ⟨"U"⟩ [⟨"V"⟩, ⟨"V"⟩],
    .ofHead ⟨"V"⟩ [.epsilon]]
  nodup_nonterminals := by decide
  nodup_terminals := by decide
  wellFormed := defect?_eq_none_iff.1 (by decide)

/-- Sixteen passes are enough for `cascade`. -/
theorem cascade_epsilonFree : cascade.isContextFree = true ∧
    (cascade.rules.countP Rule.isEpsilon + cascade.nonterminals.length) *
      (cascade.longestRight + 1) = 16 ∧
    ∃ h, (cascade.epsilonFree 16).result = .ok h := by
  have hcf : cascade.isContextFree = true := by decide
  have hbound : (cascade.rules.countP Rule.isEpsilon + cascade.nonterminals.length) *
      (cascade.longestRight + 1) = 16 := by decide
  exact ⟨hcf, hbound, exists_epsilonFree_of_le hcf (Nat.le_of_eq hbound)⟩

end Grammar

end NormalGrammar
