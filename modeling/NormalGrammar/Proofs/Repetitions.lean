import Mathlib
import NormalGrammar.Proofs.Conversion
import NormalGrammar.Proofs.Naming
import NormalGrammar.Proofs.Normalization
import NormalGrammar.Proofs.RenamingClosure

/-!
# Rules that are there twice

Where renamings are inlined, repeated rules are dropped, and the two stages that follow only drop
rules.  The last stage can repeat a rule again: `S → t B` and `S → T B` become the same rule if
`T → t` is the only rule for `T` (`repeated_not_nodup`).

* A rule turns into one rule only (`rightUnique_turns`), so a rule is there twice just when two
  rules turn into the same (`normalize_nodup_iff`).
* That takes a nonterminal that is the helper for a part of a right side, and stands on a right side
  itself.  Where there is none, different rules stay different (`Becomes.injective`,
  `normalize_nodup_of_noOwners`).
-/

namespace NormalGrammar

namespace Sequence

variable {α β : Type} {R : α → β → Prop} {xs : List α} {ys : List β}

theorem nodup_iff_filter (p : α → Bool) (xs : List α) :
    xs.Nodup ↔ (xs.filter p).Nodup ∧ (xs.filter fun x => !p x).Nodup := by
  have hdisjoint : List.Disjoint (xs.filter p) (xs.filter fun x => !p x) := by
    intro x hx hx'
    have hno := (List.mem_filter.1 hx').2
    rw [(List.mem_filter.1 hx).2] at hno
    cases hno
  rw [← (List.filter_append_perm p xs).nodup_iff, List.nodup_append']
  exact and_congr_right' (and_iff_left hdisjoint)

/-- What different things are related to, each to one thing only, is different just when no two of
them are related to the same. -/
theorem nodup_iff_of_forall₂ (hR : Relator.RightUnique R) (h : List.Forall₂ R xs ys)
    (hxs : xs.Nodup) :
    ys.Nodup ↔ ∀ x ∈ xs, ∀ x' ∈ xs, ∀ y, R x y → R x' y → x = x' := by
  have hlength : xs.length = ys.length := h.length_eq
  have hplace : ∀ i : Fin xs.length, R (xs.get i) (ys.get (i.cast hlength)) :=
    fun i => h.get i.2 (i.cast hlength).2
  constructor
  · intro hys x hx x' hx' y hxy hxy'
    obtain ⟨i, rfl⟩ := List.get_of_mem hx
    obtain ⟨j, rfl⟩ := List.get_of_mem hx'
    have hij : ys.get (i.cast hlength) = ys.get (j.cast hlength) :=
      (hR (hplace i) hxy).trans (hR (hplace j) hxy').symm
    rw [Fin.cast_injective hlength (hys.injective_get hij)]
  · intro hall
    refine List.nodup_iff_injective_get.2 fun i j hij => ?_
    have hi := hplace (i.cast hlength.symm)
    have hj := hplace (j.cast hlength.symm)
    rw [Fin.cast_cast, Fin.cast_eq_self] at hi hj
    have hsame := hall _ (List.get_mem ..) _ (List.get_mem ..) _ hi (hij ▸ hj)
    exact Fin.cast_injective hlength.symm (hxs.injective_get hsame)

end Sequence

open Sequence

theorem Helper.rule_injective : Function.Injective Helper.rule := by
  rintro ⟨x, pattern⟩ ⟨y, pattern'⟩ he
  obtain ⟨rfl, rfl⟩ := Rule.ofHead_inj.1 he
  rfl

namespace Workshop

open Grammar

variable {g : Grammar} {w : Workshop} {known : List Helper} {xs ys zs : List Symbol}
  {x y : Symbol} {pattern pattern' : List Symbol}

theorem OneToOne.symbol_eq (o : OneToOne w) (hx : ⟨x, pattern⟩ ∈ w.known)
    (hy : ⟨y, pattern⟩ ∈ w.known) : x = y :=
  congrArg Helper.symbol (List.inj_on_of_nodup_map o.patterns hx hy rfl)

theorem OneToOne.pattern_eq (o : OneToOne w) (hp : ⟨x, pattern⟩ ∈ w.known)
    (hp' : ⟨x, pattern'⟩ ∈ w.known) : pattern = pattern' :=
  congrArg Helper.pattern (List.inj_on_of_nodup_map o.symbols hp hp' rfl)

theorem Gathers.two_le (c : Gathers known xs ys) : 2 ≤ xs.length := by
  cases c <;> simp

theorem Gathers.length_eq (c : Gathers known xs ys) : ys.length = 2 := by
  cases c <;> rfl

/-! ## One thing only -/

theorem rightUnique_isolates (o : OneToOne w) : Relator.RightUnique (Isolates g w.known) := by
  intro x y z i j
  cases i with
  | terminal ha hy =>
    cases j with
    | terminal _ hz => exact o.symbol_eq hy hz
    | other hx => exact absurd ha hx
  | other hx =>
    cases j with
    | terminal ha _ => exact absurd ha hx
    | other _ => rfl

theorem rightUnique_gathers (o : OneToOne w) : Relator.RightUnique (Gathers w.known) := by
  intro xs ys zs c d
  induction c generalizing zs with
  | pair x y =>
    cases d
    rfl
  | cons _ hk ih =>
    cases d with
    | cons d hk' =>
      obtain rfl := ih d
      rw [o.symbol_eq hk hk']

/-- **A right side becomes one thing only.** -/
theorem rightUnique_becomes (o : OneToOne w) : Relator.RightUnique (Becomes g w.known) := by
  -- a single symbol is not gathered
  have hsingle : ∀ {a isolated zs}, List.Forall₂ (Isolates g w.known) [a] isolated →
      ¬ Gathers w.known isolated zs := by
    intro a isolated zs hi hc
    have htwo := hc.two_le
    rw [← hi.length_eq] at htwo
    exact absurd htwo (by simp)
  intro xs ys zs b c
  cases b with
  | terminal ha =>
    cases c with
    | terminal _ => rfl
    | gathered hi hc => exact absurd hc (hsingle hi)
  | gathered hi hc =>
    cases c with
    | terminal _ => exact absurd hc (hsingle hi)
    | gathered hi' hc' =>
      obtain rfl := List.right_unique_forall₂' (rightUnique_isolates o) hi hi'
      exact rightUnique_gathers o hc hc'

/-- So a rule turns into one rule. -/
theorem rightUnique_turns (o : OneToOne w) : Relator.RightUnique (Turns g w.known) := by
  rintro rule ⟨left, right⟩ ⟨left', right'⟩ ⟨hleft, b⟩ ⟨hleft', b'⟩
  obtain rfl : left = left' := hleft.trans hleft'.symm
  obtain rfl : right = right' := rightUnique_becomes o b b'
  rfl

/-! ## Different things -/

/-- No helper has this symbol. -/
def Unowned (known : List Helper) (x : Symbol) : Prop := ∀ pattern, ⟨x, pattern⟩ ∉ known

theorem leftUnique_isolates (o : OneToOne w) :
    Relator.LeftUnique fun x y => Unowned w.known x ∧ Isolates g w.known x y := by
  rintro x y z ⟨hx, i⟩ ⟨hy, j⟩
  cases i with
  | terminal _ hz =>
    cases j with
    | terminal _ hz' => exact List.singleton_inj.1 (o.pattern_eq hz hz')
    | other _ => exact absurd hz (hy _)
  | other _ =>
    cases j with
    | terminal _ hz => exact absurd hz (hx _)
    | other _ => rfl

/-- A symbol that is left stands for a terminal at most. -/
theorem length_ne_two_of_isolates (o : OneToOne w) (hx : Unowned w.known x)
    (i : Isolates g w.known x y) (hy : ⟨y, pattern⟩ ∈ w.known) : pattern.length ≠ 2 := by
  cases i with
  | terminal _ ha =>
    obtain rfl := o.pattern_eq ha hy
    simp
  | other _ => exact absurd hy (hx _)

/-- Different sequences are gathered to different ones, if none of their symbols stands for two. -/
theorem Gathers.injective (o : OneToOne w) (c : Gathers w.known xs zs) (d : Gathers w.known ys zs)
    (hxs : ∀ x ∈ xs, ∀ pattern, ⟨x, pattern⟩ ∈ w.known → pattern.length ≠ 2)
    (hys : ∀ y ∈ ys, ∀ pattern, ⟨y, pattern⟩ ∈ w.known → pattern.length ≠ 2) : xs = ys := by
  induction c generalizing ys with
  | pair x y =>
    cases d with
    | pair => rfl
    | cons d hk => exact absurd d.length_eq (hxs y (by simp) _ hk)
  | @cons x _ _ k _ _ c hk ih =>
    cases d with
    | pair => exact absurd c.length_eq (hys k (by simp) _ hk)
    | cons d hk' =>
      obtain rfl := o.pattern_eq hk hk'
      rw [ih d (fun x hx => hxs x (List.mem_cons_of_mem _ hx))
        fun y hy => hys y (List.mem_cons_of_mem _ hy)]

/-- What is gathered was isolated from two symbols or more; if these are no helpers, none of it stands
for two symbols. -/
theorem isolated_of_unowned (o : OneToOne w) (hxs : 2 ≤ xs.length → ∀ x ∈ xs, Unowned w.known x)
    (hi : List.Forall₂ (Isolates g w.known) xs ys) (hc : Gathers w.known ys zs) :
    List.Forall₂ (fun x y => Unowned w.known x ∧ Isolates g w.known x y) xs ys ∧
      ∀ y ∈ ys, ∀ pattern, ⟨y, pattern⟩ ∈ w.known → pattern.length ≠ 2 := by
  have hfree := hxs (hi.length_eq ▸ hc.two_le)
  have hi' := (List.forall₂_and_left _ _).2 ⟨hfree, hi⟩
  refine ⟨hi', fun y hy pattern hp => ?_⟩
  obtain ⟨i, rfl⟩ := List.get_of_mem hy
  obtain ⟨hx, hisolates⟩ := hi'.get (i.cast hi.length_eq.symm).2 i.2
  exact length_ne_two_of_isolates o hx hisolates hp

/-- **Different right sides become different ones**, if no helper stands on a longer one. -/
theorem Becomes.injective (o : OneToOne w) (b : Becomes g w.known xs zs)
    (c : Becomes g w.known ys zs) (hxs : 2 ≤ xs.length → ∀ x ∈ xs, Unowned w.known x)
    (hys : 2 ≤ ys.length → ∀ y ∈ ys, Unowned w.known y) : xs = ys := by
  cases b with
  | terminal _ =>
    cases c with
    | terminal _ => rfl
    | gathered _ hc => exact absurd hc.length_eq (by simp)
  | gathered hi hc =>
    cases c with
    | terminal _ => exact absurd hc.length_eq (by simp)
    | gathered hi' hc' =>
      obtain ⟨hfree, hshort⟩ := isolated_of_unowned o hxs hi hc
      obtain ⟨hfree', hshort'⟩ := isolated_of_unowned o hys hi' hc'
      obtain rfl := hc.injective o hc' hshort hshort'
      exact List.left_unique_forall₂' (leftUnique_isolates o) hfree hfree'

/-- No two rules of a grammar turn into the same rule. -/
def KeepsApart (g : Grammar) (known : List Helper) : Prop :=
  ∀ rule ∈ g.rules, ∀ rule' ∈ g.rules, ∀ kept,
    Turns g known rule kept → Turns g known rule' kept → rule = rule'

/-- No nonterminal with a single rule stands on a right side of two or more symbols. -/
def NoOwners (g : Grammar) : Prop :=
  ∀ rule ∈ g.rules, 2 ≤ rule.right.length → ∀ x ∈ rule.right, hasSingleRule g x = false

theorem NoOwners.unowned (hg : NoOwners g) (valid : Valid g w) {rule : Rule}
    (hrule : rule ∈ g.rules) (hlength : 2 ≤ rule.right.length) (hx : x ∈ rule.right) :
    Unowned w.known x := by
  intro pattern hp
  rcases valid.known_origin _ hp with hm | ⟨-, hsingle⟩
  · obtain ⟨hn, ht⟩ := valid.minted_fresh _ hm
    exact (declared_of_two_le hrule hlength x hx).elim hn ht
  · rw [hg rule hrule hlength x hx] at hsingle
    cases hsingle

theorem NoOwners.keepsApart (hg : NoOwners g) (valid : Valid g w) (o : OneToOne w) :
    KeepsApart g w.known := by
  rintro ⟨left, right⟩ hrule ⟨left', right'⟩ hrule' kept ⟨hleft, b⟩ ⟨hleft', b'⟩
  obtain rfl : left = left' := hleft.symm.trans hleft'
  obtain rfl : right = right' := b.injective o b'
    (fun hlength x hx => hg.unowned valid hrule hlength hx)
    fun hlength x hx => hg.unowned valid hrule' hlength hx
  rfl

end Workshop

open Workshop

/-! ## All stages -/

namespace Grammar

variable {g h : Grammar}

/-- **A rule in normal form is there twice** just when two rules turn into the same: the rules of
new helpers are all different, and different from those. -/
theorem nodup_normalForm_iff (hcf : g.isContextFree = true) (hg : g.rules.Nodup)
    (hh : g.normalForm.result = .ok h) :
    ∃ w, IsNormalFormOf w g h ∧ OneToOne w ∧
      (∀ rule ∈ g.rules, ∃ kept ∈ h.rules, Turns g w.known rule kept) ∧
      (h.rules.Nodup ↔ KeepsApart g w.known) := by
  obtain ⟨w, hc, n⟩ := normalForm_converts hcf hh
  obtain ⟨hturns, hothers⟩ := (valid_ofGrammar hcf).convertAll_turns hcf (fun _ hr => hr) hc
  have o : OneToOne w := (kept_oneToOne g).convertAll hc (oneToOne_ofGrammar g)
  refine ⟨w, n, o, fun rule hrule => ?_, ?_⟩
  · obtain ⟨i, rfl⟩ := List.get_of_mem hrule
    have hkept := List.get_mem (h.rules.filter g.rewritesNonterminal) (i.cast hturns.length_eq)
    exact ⟨_, (List.mem_filter.1 hkept).1, hturns.get i.2 (i.cast hturns.length_eq).2⟩
  · have hminted : w.minted.Nodup := .of_map _ n.valid.minted_nodup
    have hmade : (h.rules.filter fun r => !g.rewritesNonterminal r).Nodup := by
      rw [hothers]
      exact (hminted.sublist (List.drop_sublist ..)).map Helper.rule_injective
    rw [nodup_iff_filter g.rewritesNonterminal, nodup_iff_of_forall₂ (rightUnique_turns o) hturns hg]
    exact and_iff_left hmade

end Grammar

open Grammar

variable {g e u r p n : Grammar} {limit : Nat}

theorem Steps.nodup_rules (s : Steps limit g e u r p n) (hcf : g.isContextFree = true) :
    p.rules.Nodup := by
  obtain ⟨he, -⟩ := s.guarantees hcf
  have hu : u.rules.Nodup := nodup_rules_renamingFree he.contextFree s.renamingFree
  obtain ⟨found, -, -, -, -, hr⟩ := reachable_eq_ok_found s.reachable
  obtain ⟨known, -, -, -, -, hp⟩ := productive_eq_ok_known s.productive
  rw [hp, hr]
  exact (hu.filter _).filter _

/-- **Where rules are repeated**: before the last stage no rule is there twice, and after it none is
just when no two rules for one symbol become the same where helpers are put in the place of
terminals and of pairs. -/
theorem normalize_nodup_iff (hcf : g.isContextFree = true) (hn : g.normalize limit = .ok n) :
    ∃ p w, (g.normalization limit).finished.lookup .productivity = some p ∧
      IsNormalFormOf w p n ∧ p.rules.Nodup ∧
      (∀ rule ∈ p.rules, ∃ kept ∈ n.rules, Turns p w.known rule kept) ∧
      (n.rules.Nodup ↔ KeepsApart p w.known) := by
  obtain ⟨e, u, r, p, s, hfinished⟩ := normalize_eq_ok hcf hn
  obtain ⟨-, -, hpcf, -⟩ := s.parts hcf
  have hp := s.nodup_rules hcf
  obtain ⟨w, hnf, -, hturns, hiff⟩ := nodup_normalForm_iff hpcf hp s.normalForm
  refine ⟨p, w, ?_, hnf, hp, hturns, hiff⟩
  rw [hfinished]
  rfl

/-- Two right sides that become different ones, though `R` stands for `r` and is a symbol of its
own. -/
def parted : Grammar where
  start := ⟨"S"⟩
  nonterminals := [⟨"S"⟩, ⟨"R"⟩, ⟨"V"⟩]
  terminals := [⟨"r"⟩, ⟨"v"⟩]
  rules := [.ofHead ⟨"S"⟩ [⟨"r"⟩, ⟨"V"⟩], .ofHead ⟨"S"⟩ [⟨"V"⟩, ⟨"R"⟩], .ofHead ⟨"R"⟩ [⟨"r"⟩],
    .ofHead ⟨"V"⟩ [⟨"v"⟩]]
  nodup_nonterminals := by decide
  nodup_terminals := by decide
  wellFormed := defect?_eq_none_iff.1 (by decide)

/-- What `parted` becomes. -/
def partedNormal : Grammar where
  start := ⟨"S"⟩
  nonterminals := [⟨"S"⟩, ⟨"R"⟩, ⟨"V"⟩]
  terminals := [⟨"r"⟩, ⟨"v"⟩]
  rules := [.ofHead ⟨"S"⟩ [⟨"R"⟩, ⟨"V"⟩], .ofHead ⟨"S"⟩ [⟨"V"⟩, ⟨"R"⟩], .ofHead ⟨"R"⟩ [⟨"r"⟩],
    .ofHead ⟨"V"⟩ [⟨"v"⟩]]
  nodup_nonterminals := by decide
  nodup_terminals := by decide
  wellFormed := defect?_eq_none_iff.1 (by decide)

/-- No two rules of `parted` turn into the same, and none is there twice in the end. -/
theorem parted_nodup : parted.isContextFree = true ∧ parted.normalize 10 = .ok partedNormal ∧
    ∃ p w, (parted.normalization 10).finished.lookup .productivity = some p ∧
      IsNormalFormOf w p partedNormal ∧ p.rules.Nodup ∧
      (∀ rule ∈ p.rules, ∃ kept ∈ partedNormal.rules, Turns p w.known rule kept) ∧
      KeepsApart p w.known ∧ partedNormal.rules.Nodup := by
  have hcf : parted.isContextFree = true := by decide
  have hn : parted.normalize 10 = .ok partedNormal := by decide_cbv
  have hparted : partedNormal.rules.Nodup := by decide
  obtain ⟨p, w, hp, hnf, hnodup, hturns, hiff⟩ := normalize_nodup_iff hcf hn
  exact ⟨hcf, hn, p, w, hp, hnf, hnodup, hturns, hiff.1 hparted, hparted⟩

/-- Two right sides that become the same, as `T` stands for `t`. -/
def repeated : Grammar where
  start := ⟨"S"⟩
  nonterminals := [⟨"S"⟩, ⟨"T"⟩, ⟨"B"⟩]
  terminals := [⟨"t"⟩, ⟨"b"⟩]
  rules := [.ofHead ⟨"S"⟩ [⟨"T"⟩, ⟨"B"⟩], .ofHead ⟨"S"⟩ [⟨"t"⟩, ⟨"B"⟩], .ofHead ⟨"T"⟩ [⟨"t"⟩],
    .ofHead ⟨"B"⟩ [⟨"b"⟩]]
  nodup_nonterminals := by decide
  nodup_terminals := by decide
  wellFormed := defect?_eq_none_iff.1 (by decide)

/-- What `repeated` becomes. -/
def repeatedNormal : Grammar where
  start := ⟨"S"⟩
  nonterminals := [⟨"S"⟩, ⟨"T"⟩, ⟨"B"⟩]
  terminals := [⟨"t"⟩, ⟨"b"⟩]
  rules := [.ofHead ⟨"S"⟩ [⟨"T"⟩, ⟨"B"⟩], .ofHead ⟨"S"⟩ [⟨"T"⟩, ⟨"B"⟩], .ofHead ⟨"T"⟩ [⟨"t"⟩],
    .ofHead ⟨"B"⟩ [⟨"b"⟩]]
  nodup_nonterminals := by decide
  nodup_terminals := by decide
  wellFormed := defect?_eq_none_iff.1 (by decide)

/-- **A rule may be repeated**: `S → T B` is there twice. -/
theorem repeated_not_nodup : repeated.isContextFree = true ∧
    repeated.normalize 10 = .ok repeatedNormal ∧ ¬ repeatedNormal.rules.Nodup :=
  ⟨by decide, by decide_cbv, by decide⟩

/-- **No rule is repeated where no helper is a symbol of its own**: if no nonterminal with a single
rule stands on a right side of two or more symbols, after the fourth stage. -/
theorem normalize_nodup_of_noOwners (hcf : g.isContextFree = true) (hn : g.normalize limit = .ok n)
    (hp : ∀ p, (g.normalization limit).finished.lookup .productivity = some p → NoOwners p) :
    n.rules.Nodup := by
  obtain ⟨e, u, r, p, s, hfinished⟩ := normalize_eq_ok hcf hn
  obtain ⟨-, -, hpcf, -⟩ := s.parts hcf
  obtain ⟨w, hnf, o, -, hiff⟩ := nodup_normalForm_iff hpcf (s.nodup_rules hcf) s.normalForm
  have hnone : NoOwners p := hp p (by rw [hfinished]; rfl)
  exact hiff.2 (hnone.keepsApart hnf.valid o)

end NormalGrammar
