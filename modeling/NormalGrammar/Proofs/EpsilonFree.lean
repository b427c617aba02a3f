import NormalGrammar.Normal.EpsilonFree
import NormalGrammar.Proofs.Dropping
import NormalGrammar.Proofs.Simulation

/-!
# Grammars without empty right sides

Which rules are left when empty right sides have been removed, and what they derive.

* `EpsilonFree.Invariant` holds whenever the removal looks at its rules: the rules at hand are
  variants of the given ones, and every variant that leaves out only settled symbols is there.
* `mem_rules_epsilonFree`: the rules in the end are exactly the variants `A → w` in which some
  occurrences of nullable symbols have been left out of a given right side.
* `derives_epsilonFree_iff`: every nonterminal derives what it derived before, the empty word aside.
-/

namespace NormalGrammar

open Sequence

namespace Grammar

/-- A rule that is left of a rule of `g` when occurrences of nullable symbols are left out. -/
structure IsVariant (g : Grammar) (rule : Rule) : Prop where
  right_ne_nil : rule.right ≠ []
  origin : ∃ right, ⟨rule.left, right⟩ ∈ g.rules ∧ right ≠ [Symbol.epsilon] ∧
    Drops g.IsNullable right rule.right

variable {g h : Grammar} {rule : Rule} {xs ys w : List Symbol} {x : Symbol}

theorem IsVariant.right_ne_epsilon (hv : g.IsVariant rule) : rule.right ≠ [Symbol.epsilon] := by
  obtain ⟨right, hright, hε, hd⟩ := hv.origin
  intro he
  have hmem := hd.subset (he ▸ List.mem_singleton_self Symbol.epsilon)
  exact ne_epsilon_of_mem_right hright hε hmem rfl

theorem Derives.of_drops (hd : Drops g.IsNullable xs ys) (d : g.Derives ys w) :
    g.Derives xs w := by
  induction hd generalizing w with
  | nil => exact d
  | keep x _ ih =>
    obtain ⟨u, v, hw, du, dv⟩ := derives_cons_iff.1 d
    exact derives_cons_iff.2 ⟨u, v, hw, du, ih dv⟩
  | drop hx _ ih => exact derives_cons_iff.2 ⟨[], w, rfl, hx, ih d⟩

theorem isNullable_of_drops_nil {right : List Symbol} (hrule : ⟨[x], right⟩ ∈ g.rules)
    (hd : Drops g.IsNullable right []) : g.IsNullable x :=
  (Derives.of_drops hd (derives_nil_iff.2 rfl)).of_rule (mem_rulesOf_iff_left.2 ⟨hrule, rfl⟩)

theorem IsNullable.mem_nonterminals (hnull : g.IsNullable x) (hcf : g.isContextFree = true)
    (hx : x ∈ g.nonterminals ∨ x ∈ g.terminals) : x ∈ g.nonterminals := by
  rcases hx with hx | hx
  · exact hx
  · exact absurd ((derives_terminal_iff hcf hx).1 hnull) (List.cons_ne_nil _ _).symm

end Grammar

namespace EpsilonFree

open Grammar

variable {g : Grammar} {rules : List Rule} {rule : Rule} {left right : List Symbol}
  {eliminated settled : List Symbol} {x : Symbol} {w : List Symbol}

/-! ## Variants of one rule -/

/-- What the variants of a rule are. -/
theorem mem_variants_iff {r : Rule} : r ∈ variants eliminated x rule ↔
    r.left = rule.left ∧ ∃ u ∈ droppingOne x rule.right,
      (u ≠ [] ∧ r.right = u) ∨
        (u = [] ∧ r.right = [Symbol.epsilon] ∧ ¬ ∃ y ∈ rule.left, y ∈ eliminated) := by
  simp only [variants, List.mem_filterMap]
  constructor
  · rintro ⟨u, hu, hr⟩
    unfold variant? at hr
    split at hr
    · rename_i hne
      obtain rfl := Option.some.inj hr
      exact ⟨rfl, u, hu, .inl ⟨hne, rfl⟩⟩
    · rename_i hnil
      split at hr
      · cases hr
      · rename_i hfresh
        obtain rfl := Option.some.inj hr
        exact ⟨rfl, u, hu, .inr ⟨Decidable.not_not.1 hnil, rfl, hfresh⟩⟩
  · obtain ⟨left, right⟩ := r
    rintro ⟨rfl, u, hu, ⟨hne, rfl⟩ | ⟨rfl, rfl, hfresh⟩⟩
    · exact ⟨_, hu, by rw [variant?, if_pos hne]⟩
    · exact ⟨_, hu, by rw [variant?, if_neg (by simp), if_neg hfresh]⟩

/-! ## What holds while empty right sides are removed -/

/-- The right side `w` is there, or it is empty and the left side is known to be nullable. -/
def Accounted (rules : List Rule) (eliminated left w : List Symbol) : Prop :=
  (w ≠ [] ∧ ⟨left, w⟩ ∈ rules) ∨
    (w = [] ∧ ((∃ y ∈ left, y ∈ eliminated) ∨ ⟨left, [Symbol.epsilon]⟩ ∈ rules))

/-- The state of a removal.  Occurrences of the symbols in `settled` have been left out in every
way, and those in `eliminated` have lost their empty right side. -/
structure Invariant (g : Grammar) (rules : List Rule) (eliminated settled : List Symbol) :
    Prop where
  nullable : ∀ x ∈ eliminated, x ∈ g.nonterminals ∧ g.IsNullable x
  origin : ∀ rule ∈ rules,
    (rule.right = [Symbol.epsilon] ∧ ∃ x ∈ g.nonterminals, rule.left = [x] ∧ g.IsNullable x) ∨
      g.IsVariant rule
  empties : ∀ rule ∈ g.rules, rule.right = [Symbol.epsilon] →
    Accounted rules eliminated rule.left []
  complete : ∀ rule ∈ g.rules, rule.right ≠ [Symbol.epsilon] →
    ∀ w, Drops (· ∈ settled) rule.right w → Accounted rules eliminated rule.left w

theorem Invariant.start (hcf : g.isContextFree = true) : Invariant g g.rules [] [] where
  nullable := fun x hx => absurd hx List.not_mem_nil
  origin := by
    intro rule hrule
    by_cases hε : rule.right = [Symbol.epsilon]
    · obtain ⟨x, hx, hleft⟩ := isContextFree_iff.1 hcf rule hrule
      have d : g.Derives rule.right [] := hε ▸ derives_epsilon_iff.2 rfl
      exact .inl ⟨hε, x, hx, hleft, d.of_rule (mem_rulesOf_iff_left.2 ⟨hrule, hleft⟩)⟩
    · exact .inr ⟨right_ne_nil hrule, rule.right, hrule, hε, .refl _⟩
  empties := fun rule hrule hε => .inr ⟨rfl, .inr (by rw [← hε]; exact hrule)⟩
  complete := by
    intro rule hrule hε w hd
    rw [hd.eq_self fun x _ => List.not_mem_nil]
    exact .inl ⟨right_ne_nil hrule, hrule⟩

theorem Accounted.mono {more : List Rule} (h : Accounted rules eliminated left w)
    (hsub : rules ⊆ more) : Accounted more eliminated left w := by
  rcases h with ⟨hw, h⟩ | ⟨hw, h | h⟩
  · exact .inl ⟨hw, hsub h⟩
  · exact .inr ⟨hw, .inl h⟩
  · exact .inr ⟨hw, .inr (hsub h)⟩

/-- The rule `x → ε` may go when `x` is noted down. -/
theorem Accounted.erase (h : Accounted rules eliminated left w) (hw : w ≠ [Symbol.epsilon]) :
    Accounted (rules.erase ⟨[x], [Symbol.epsilon]⟩) (x :: eliminated) left w := by
  rcases h with ⟨hne, h⟩ | ⟨rfl, ⟨y, hy, he⟩ | h⟩
  · refine .inl ⟨hne, (List.mem_erase_of_ne fun e => hw ?_).2 h⟩
    exact (Rule.mk.inj e).2
  · exact .inr ⟨rfl, .inl ⟨y, hy, List.mem_cons_of_mem _ he⟩⟩
  · by_cases hl : left = [x]
    · exact .inr ⟨rfl, .inl ⟨x, by simp [hl], List.mem_cons_self ..⟩⟩
    · refine .inr ⟨rfl, .inr ((List.mem_erase_of_ne fun e => hl ?_).2 h)⟩
      exact (Rule.mk.inj e).1

theorem Invariant.erase (inv : Invariant g rules eliminated eliminated) (hrule : rule ∈ rules)
    (hε : rule.right = [Symbol.epsilon]) (hhead : rule.head? = some x) :
    Invariant g (rules.erase rule) (x :: eliminated) eliminated := by
  obtain ⟨left, right⟩ := rule
  obtain rfl : left = [x] := Rule.head?_eq_some_iff.1 hhead
  obtain rfl : right = [Symbol.epsilon] := hε
  refine ⟨?_, fun r hr => inv.origin r (List.mem_of_mem_erase hr), ?_, ?_⟩
  · have hx : x ∈ g.nonterminals ∧ g.IsNullable x := by
      rcases inv.origin _ hrule with ⟨-, y, hy, hl, hn⟩ | hv
      · obtain rfl : x = y := (List.cons.inj hl).1
        exact ⟨hy, hn⟩
      · exact absurd rfl hv.right_ne_epsilon
    exact List.forall_mem_cons.2 ⟨hx, inv.nullable⟩
  · exact fun r hr hrε => (inv.empties r hr hrε).erase (by simp)
  · intro r hr hrε w hd
    refine (inv.complete r hr hrε w hd).erase fun hw => ?_
    have hmem := hd.subset (hw ▸ List.mem_singleton_self Symbol.epsilon)
    exact ne_epsilon_of_mem_right hr hrε hmem rfl

theorem Invariant.add (hcf : g.isContextFree = true)
    (inv : Invariant g rules eliminated settled) (hx : x ∈ eliminated)
    {more : List Rule} (hmore : ∀ r ∈ more, ∃ rule ∈ rules, r ∈ variants eliminated x rule) :
    Invariant g (rules ++ more) eliminated settled := by
  have hsub : rules ⊆ rules ++ more := List.subset_append_left _ _
  obtain ⟨hxn, hnull⟩ := inv.nullable x hx
  refine ⟨inv.nullable, ?_, fun r hr hε => (inv.empties r hr hε).mono hsub,
    fun r hr hε w hd => (inv.complete r hr hε w hd).mono hsub⟩
  intro r hr
  rcases List.mem_append.1 hr with hr | hr
  · exact inv.origin r hr
  · obtain ⟨rule, hrule, hv⟩ := hmore r hr
    obtain ⟨hleft, u, hu, hcase⟩ := mem_variants_iff.1 hv
    have hd : Drops g.IsNullable rule.right u :=
      (drops_of_mem_droppingOne hu).mono fun y _ hy => hy ▸ hnull
    rcases inv.origin rule hrule with ⟨hε, -⟩ | ⟨-, right, hright, hrε, ho⟩
    · have hmem := mem_of_mem_droppingOne hu
      rw [hε, List.mem_singleton] at hmem
      exact absurd hmem (ne_epsilon_of_mem_nonterminals hxn)
    · rw [← hleft] at hright
      rcases hcase with ⟨hne, he⟩ | ⟨rfl, he, -⟩
      · exact .inr ⟨he ▸ hne, right, hright, hrε, he ▸ ho.trans hd⟩
      · obtain ⟨y, hy, hl⟩ : ∃ y ∈ g.nonterminals, r.left = [y] :=
          isContextFree_iff.1 hcf ⟨r.left, right⟩ hright
        rw [hl] at hright
        exact .inl ⟨he, y, hy, hl, isNullable_of_drops_nil hright (ho.trans hd)⟩

/-- When leaving out occurrences of `x` adds nothing, all of them can be left out. -/
theorem Accounted.drop {x : Symbol}
    (hclosed : ∀ rule ∈ rules, ∀ r ∈ variants eliminated x rule, r ∈ rules)
    (h : Accounted rules eliminated left right) (hd : Drops (· = x) right w) :
    Accounted rules eliminated left w := by
  rcases h with ⟨hright, hrule⟩ | ⟨rfl, h⟩
  · -- by induction on the length, since each variant lacks one more occurrence
    induction hn : right.length using Nat.strongRecOn generalizing right with
    | ind n ih =>
      rcases drops_eq_or_droppingOne hd with rfl | ⟨u, hu, hd⟩
      · exact .inl ⟨hright, hrule⟩
      · by_cases hne : u = []
        · obtain rfl := (hne ▸ hd).eq_nil
          by_cases hfresh : ∃ y ∈ left, y ∈ eliminated
          · exact .inr ⟨rfl, .inl hfresh⟩
          · exact .inr ⟨rfl, .inr (hclosed _ hrule _
              (mem_variants_iff.2 ⟨rfl, u, hu, .inr ⟨hne, rfl, hfresh⟩⟩))⟩
        · have hmem := hclosed _ hrule ⟨left, u⟩
            (mem_variants_iff.2 ⟨rfl, u, hu, .inl ⟨hne, rfl⟩⟩)
          exact ih u.length (hn ▸ length_of_mem_droppingOne hu) hd hne hmem rfl
  · rw [hd.eq_nil]
    exact .inr ⟨rfl, h⟩

/-- When leaving out occurrences of the last eliminated symbol adds nothing, it is settled. -/
theorem Invariant.settle (inv : Invariant g rules (x :: settled) settled)
    (hclosed : ∀ rule ∈ rules, ∀ r ∈ variants (x :: settled) x rule, r ∈ rules) :
    Invariant g rules (x :: settled) (x :: settled) := by
  refine { inv with complete := ?_ }
  intro rule hrule hε w hd
  obtain ⟨u, hu, hw⟩ := (hd.mono fun y _ hy => List.mem_cons.1 hy).exists_between
  exact (inv.complete rule hrule hε u hu).drop hclosed hw

/-! ## What holds in the end -/

/-- Once no empty right side is left, all nullable symbols have been eliminated. -/
theorem Invariant.mem_eliminated
    (inv : Invariant g rules eliminated eliminated)
    (hnone : ∀ rule ∈ rules, rule.right ≠ [Symbol.epsilon]) (hx : x ∈ g.nonterminals)
    (hnull : g.IsNullable x) : x ∈ eliminated := by
  have accounted : ∀ y, Accounted rules eliminated [y] [] → y ∈ eliminated := by
    rintro y (⟨hne, -⟩ | ⟨-, ⟨z, hz, he⟩ | h⟩)
    · exact absurd rfl hne
    · exact List.mem_singleton.1 hz ▸ he
    · exact absurd rfl (hnone _ h)
  -- all of a right side that derives the empty word can be left out
  have key : ∀ {xs w k n}, g.DerivesWith xs w k n → w = [] →
      ∀ y ∈ xs, y = Symbol.epsilon ∨ y ∈ eliminated := by
    intro xs w k n d
    induction d with
    | nil => exact fun _ y hy => absurd hy List.not_mem_nil
    | epsilon _ ih => exact fun hw => List.forall_mem_cons.2 ⟨.inl rfl, ih hw⟩
    | terminal _ _ _ => exact fun hw => absurd hw (List.cons_ne_nil _ _)
    | @expand y rule _ _ _ _ _ _ _ hmem _ _ ihr ih =>
      intro hw
      obtain ⟨hv, hw⟩ := List.append_eq_nil_iff.1 hw
      refine List.forall_mem_cons.2 ⟨.inr (accounted y ?_), ih hw⟩
      obtain ⟨hrule, hleft⟩ := mem_rulesOf_iff_left.1 hmem
      rw [← hleft]
      by_cases hε : rule.right = [Symbol.epsilon]
      · exact inv.empties rule hrule hε
      · refine inv.complete rule hrule hε [] (drops_nil_iff.2 fun z hz => ?_)
        exact (ihr hv z hz).resolve_left (ne_epsilon_of_mem_right hrule hε hz)
  obtain ⟨k, n, d⟩ := hnull
  exact (key d rfl x (List.mem_singleton_self x)).resolve_left (ne_epsilon_of_mem_nonterminals hx)

/-- Once no empty right side is left, the rules at hand are the variants of the given ones. -/
theorem Invariant.mem_iff (hcf : g.isContextFree = true)
    (inv : Invariant g rules eliminated eliminated)
    (hnone : ∀ rule ∈ rules, rule.right ≠ [Symbol.epsilon]) :
    rule ∈ rules ↔ g.IsVariant rule := by
  constructor
  · intro hrule
    rcases inv.origin rule hrule with ⟨hε, -⟩ | hv
    · exact absurd hε (hnone rule hrule)
    · exact hv
  · rintro ⟨hne, right, hright, hε, hd⟩
    have hd : Drops (· ∈ eliminated) right rule.right := by
      refine hd.mono fun y hy hnull => inv.mem_eliminated hnone ?_ hnull
      exact hnull.mem_nonterminals hcf (right_declared hright hε hy)
    rcases inv.complete _ hright hε _ hd with ⟨-, h⟩ | ⟨hnil, -⟩
    · exact h
    · exact absurd hnil hne

/-! ## Running the removal -/

theorem next_eq_none_iff :
    (State.next rules eliminated).result = .ok none ↔
      ∀ rule ∈ rules, rule.right ≠ [Symbol.epsilon] := by
  unfold State.next
  cases hf : rules.find? Rule.isEpsilon with
  | none =>
    rw [List.find?_eq_none] at hf
    simp only [Rule.isEpsilon_iff] at hf
    exact ⟨fun _ => hf, fun _ => rfl⟩
  | some rule =>
    have hε := Rule.isEpsilon_iff.1 (List.find?_some hf)
    simp only [Traced.result_bind_eq_ok_iff, Traced.result_pure, Except.ok.injEq, reduceCtorEq,
      and_false, exists_false, false_iff]
    exact fun h => h rule (List.mem_of_find?_eq_some hf) hε

theorem next_eq_some {t : State} (h : (State.next rules eliminated).result = .ok (some t)) :
    ∃ rule ∈ rules, rule.right = [Symbol.epsilon] ∧ ∃ x, rule.head? = some x ∧
      t = ⟨rules.erase rule, x :: eliminated, x⟩ := by
  unfold State.next at h
  split at h
  · cases h
  · rename_i rule hf
    simp only [Traced.result_bind_eq_ok_iff, Traced.result_monadLift, Stage.headOf_eq_ok_iff] at h
    obtain ⟨x, hx, -, -, ht⟩ := h
    exact ⟨rule, List.mem_of_find?_eq_some hf, Rule.isEpsilon_iff.1 (List.find?_some hf), x, hx,
      (Option.some.inj (Except.ok.inj ht)).symm⟩

/-- What one pass does: it adds variants, or goes on to the next empty right side, or is done. -/
theorem run_eq_ok {limit passes : Nat} {s : State} {result : List Rule}
    (h : (s.run limit (passes + 1)).result = .ok result) :
    (s.additions ≠ [] ∧
        (State.run limit passes { s with rules := s.rules ++ s.additions }).result = .ok result) ∨
      (s.additions = [] ∧
        (((State.next s.rules s.eliminated).result = .ok none ∧ result = s.rules) ∨
          ∃ t, (State.next s.rules s.eliminated).result = .ok (some t) ∧
            (State.run limit passes t).result = .ok result)) := by
  rw [State.run, Traced.result_bind_eq_ok_iff] at h
  obtain ⟨-, -, h⟩ := h
  split at h
  · rename_i hadd
    obtain ⟨o, ho, h⟩ := Traced.result_bind_eq_ok_iff.1 h
    cases o with
    | none => exact .inr ⟨hadd, .inl ⟨ho, (Except.ok.inj h).symm⟩⟩
    | some t => exact .inr ⟨hadd, .inr ⟨t, ho, h⟩⟩
  · rename_i hadd
    exact .inl ⟨hadd, h⟩

/-- Removal keeps its invariant, and ends with no empty right side and everything settled. -/
theorem Invariant.run (hcf : g.isContextFree = true) {limit passes : Nat} {result : List Rule} :
    ∀ {s : State} {settled : List Symbol}, s.eliminated = s.current :: settled →
      Invariant g s.rules s.eliminated settled → (s.run limit passes).result = .ok result →
        (∀ rule ∈ result, rule.right ≠ [Symbol.epsilon]) ∧
          ∃ eliminated, Invariant g result eliminated eliminated := by
  induction passes with
  | zero => exact fun _ _ h => nomatch h
  | succ passes ih =>
    intro s settled hs inv h
    rcases run_eq_ok h with ⟨-, h⟩ | ⟨hnone, h⟩
    · have hmem : s.current ∈ s.eliminated := hs ▸ List.mem_cons_self ..
      have hadd : ∀ r ∈ s.additions, ∃ rule ∈ s.rules,
          r ∈ variants s.eliminated s.current rule :=
        fun r hr => List.mem_flatMap.1 (mem_missing.1 hr).1
      exact ih (s := { s with rules := s.rules ++ s.additions }) hs (inv.add hcf hmem hadd) h
    · have hclosed : ∀ rule ∈ s.rules, ∀ r ∈ variants s.eliminated s.current rule,
          r ∈ s.rules := by
        refine fun rule hrule r hr => Decidable.byContradiction fun hmiss => ?_
        have : r ∈ s.additions := mem_missing.2 ⟨List.mem_flatMap.2 ⟨rule, hrule, hr⟩, hmiss⟩
        rw [hnone] at this
        cases this
      have inv : Invariant g s.rules s.eliminated s.eliminated := by
        rw [hs] at inv hclosed ⊢
        exact inv.settle hclosed
      rcases h with ⟨hn, rfl⟩ | ⟨t, ht, h⟩
      · exact ⟨next_eq_none_iff.1 hn, _, inv⟩
      · obtain ⟨rule, hrule, hε, x, hx, rfl⟩ := next_eq_some ht
        exact ih rfl (inv.erase hrule hε hx) h

theorem mem_rules_iff {limit : Nat} {result : List Rule} (hcf : g.isContextFree = true)
    (h : (EpsilonFree.rules limit g.rules).result = .ok result) :
    rule ∈ result ↔ g.IsVariant rule := by
  obtain ⟨hnone, eliminated, inv⟩ : (∀ rule ∈ result, rule.right ≠ [Symbol.epsilon]) ∧
      ∃ eliminated, Invariant g result eliminated eliminated := by
    obtain ⟨o, ho, h⟩ := Traced.result_bind_eq_ok_iff.1 h
    cases o with
    | none =>
      have h : g.rules = result := Except.ok.inj h
      exact h ▸ ⟨next_eq_none_iff.1 ho, [], .start hcf⟩
    | some s =>
      obtain ⟨rule, hrule, hε, x, hx, rfl⟩ := next_eq_some ho
      exact Invariant.run hcf rfl ((Invariant.start hcf).erase hrule hε hx) h
  exact inv.mem_iff hcf hnone

end EpsilonFree

namespace Grammar

open EpsilonFree

variable {g h : Grammar} {limit : Nat} {rule : Rule}

/-- The grammar without empty right sides has the parts of the given one, its rules aside. -/
theorem epsilonFree_eq_ok (hh : (g.epsilonFree limit).result = .ok h) :
    h.start = g.start ∧ h.nonterminals = g.nonterminals ∧ h.terminals = g.terminals ∧
      (EpsilonFree.rules limit g.rules).result = .ok h.rules :=
  Stage.parts_of_new_rules hh

/-- **The rules without empty right sides** are the variants of the given rules in which some
occurrences of nullable symbols have been left out. -/
theorem mem_rules_epsilonFree (hcf : g.isContextFree = true)
    (hh : (g.epsilonFree limit).result = .ok h) : rule ∈ h.rules ↔ g.IsVariant rule :=
  mem_rules_iff hcf (epsilonFree_eq_ok hh).2.2.2

theorem noEmptyRules_epsilonFree (hcf : g.isContextFree = true)
    (hh : (g.epsilonFree limit).result = .ok h) : h.NoEmptyRules :=
  fun _ hrule => ((mem_rules_epsilonFree hcf hh).1 hrule).right_ne_epsilon

theorem isContextFree_epsilonFree (hcf : g.isContextFree = true)
    (hh : (g.epsilonFree limit).result = .ok h) : h.isContextFree = true := by
  refine isContextFree_iff.2 fun rule hrule => ?_
  obtain ⟨right, hright, -, -⟩ := ((mem_rules_epsilonFree hcf hh).1 hrule).origin
  obtain ⟨-, hn, -, -⟩ := epsilonFree_eq_ok hh
  rw [hn]
  exact isContextFree_iff.1 hcf ⟨rule.left, right⟩ hright

/-! ## The words that are left -/

theorem Derives.of_epsilonFree (hcf : g.isContextFree = true)
    (hh : (g.epsilonFree limit).result = .ok h) {xs w : List Symbol} (d : h.Derives xs w) :
    g.Derives xs w := by
  obtain ⟨-, -, ht, -⟩ := epsilonFree_eq_ok hh
  refine d.replay (fun a ha => ht ▸ ha) fun x rule v hmem _ dv => ?_
  obtain ⟨hrule, hleft⟩ := mem_rulesOf_iff_left.1 hmem
  obtain ⟨right, hright, -, hd⟩ := ((mem_rules_epsilonFree hcf hh).1 hrule).origin
  exact (dv.of_drops hd).of_rule (mem_rulesOf_iff_left.2 ⟨hright, hleft⟩)

/-- What the given rules derive, the variants derive when the symbols that derive the empty word are
left out. -/
theorem Derives.exists_epsilonFree (hcf : g.isContextFree = true)
    (hh : (g.epsilonFree limit).result = .ok h) {xs w : List Symbol} (d : g.Derives xs w) :
    ∃ ys, Drops g.IsNullable xs ys ∧ h.Derives ys w := by
  obtain ⟨-, -, ht, -⟩ := epsilonFree_eq_ok hh
  obtain ⟨k, n, d⟩ := d
  induction d with
  | nil => exact ⟨[], .nil, derives_nil_iff.2 rfl⟩
  | epsilon _ ih =>
    obtain ⟨ys, hd, d⟩ := ih
    exact ⟨ys, .drop (derives_epsilon_iff.2 rfl) hd, d⟩
  | @terminal a xs w k n ha _ ih =>
    obtain ⟨ys, hd, d⟩ := ih
    have da : h.Derives [a] [a] := derives_terminal (ht ▸ ha)
    exact ⟨a :: ys, .keep a hd, derives_cons_iff.2 ⟨[a], w, rfl, da, d⟩⟩
  | @expand x rule xs v w k l n m hmem dr _ ihr ih =>
    obtain ⟨ys, hd, d⟩ := ih
    obtain ⟨zs, hzs, dz⟩ := ihr
    obtain ⟨hrule, hleft⟩ := mem_rulesOf_iff_left.1 hmem
    by_cases hv : v = []
    · subst hv
      exact ⟨ys, .drop (Derives.of_rule hmem ⟨k, n, dr⟩) hd, d⟩
    · have hε : rule.right ≠ [Symbol.epsilon] :=
        fun he => hv (derives_epsilon_iff.1 ⟨k, n, he ▸ dr⟩)
      have hne : zs ≠ [] := fun he => hv (derives_nil_iff.1 (he ▸ dz))
      have hvar : g.IsVariant ⟨rule.left, zs⟩ := ⟨hne, rule.right, hrule, hε, hzs⟩
      rw [hleft] at hvar
      have dx : h.Derives [x] v := .of_ofHead ((mem_rules_epsilonFree hcf hh).2 hvar) dz
      exact ⟨x :: ys, .keep x hd, derives_cons_iff.2 ⟨v, w, rfl, dx, d⟩⟩

/-- **Removing empty right sides** takes the empty word away from every nonterminal and leaves all
its other words. -/
theorem derives_epsilonFree_iff (hcf : g.isContextFree = true)
    (hh : (g.epsilonFree limit).result = .ok h) {x : Symbol} {w : List Symbol}
    (hx : x ∈ g.nonterminals) : h.Derives [x] w ↔ g.Derives [x] w ∧ w ≠ [] := by
  constructor
  · intro d
    have hlen := length_le_of_derives (noEmptyRules_epsilonFree hcf hh) d
      (by simpa using ne_epsilon_of_mem_nonterminals hx)
    exact ⟨d.of_epsilonFree hcf hh, List.ne_nil_of_length_pos hlen⟩
  · rintro ⟨d, hw⟩
    obtain ⟨ys, hd, d⟩ := d.exists_epsilonFree hcf hh
    cases hd with
    | keep _ hd => rwa [hd.eq_nil] at d
    | drop _ hd =>
      rw [hd.eq_nil] at d
      exact absurd (derives_nil_iff.1 d) hw

end Grammar

end NormalGrammar
