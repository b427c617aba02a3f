import Mathlib.Data.List.Nodup
import NormalGrammar.Proofs.Folding

/-!
# Grammars in normal form

What the conversion of all rules makes, and what it derives.

* `Workshop.Converts` is the conversion of a list of rules as a relation; inductions over it say
  where its rules come from (`Converts.origin`), that no rule of a helper is missing
  (`Converts.rule_of_new`) and that a symbol has as many rules as before
  (`Converts.length_rulesOf`).
* So each helper expands to its right side and to nothing else (`IsNormalFormOf.rule_unique`).
* `IsNormalFormOf.derives_iff`: the declared symbols derive what they derived before.
-/

namespace NormalGrammar

open Sequence Grammar

namespace Workshop

variable {g : Grammar} {w last : Workshop} {rules out : List Rule} {rule r : Rule} {h k : Helper}
  {x : Symbol}

/-! ## Converting all rules -/

/-- `Converts g w rules out last` says that, from the workshop `w` on, the rules `rules` become `out`,
and that `last` is what is left of the workshop. -/
inductive Converts (g : Grammar) : Workshop → List Rule → List Rule → Workshop → Prop
  | nil {w : Workshop} : Valid g w → Converts g w [] [] w
  | cons {w after last : Workshop} {rule : Rule} {rest out : List Rule} {right : List Symbol} :
      rule ∈ g.rules → Converted g w rule right after → Converts g after rest out last →
      Converts g w (rule :: rest)
        (⟨rule.left, right⟩ :: (after.minted.drop w.minted.length).map Helper.rule ++ out) last

/-- The rules of a context free grammar are converted one after the other. -/
theorem Valid.convertAll (valid : Valid g w) (hcf : g.isContextFree = true)
    (hrules : ∀ rule ∈ rules, rule ∈ g.rules)
    (hc : (w.convertAll g rules).result = .ok (out, last)) : Converts g w rules out last := by
  induction rules generalizing w out with
  | nil =>
    obtain ⟨rfl, rfl⟩ := Prod.mk.inj (Except.ok.inj hc)
    exact .nil valid
  | cons rule rest ih =>
    obtain ⟨right, after, others, hone, hrest, rfl⟩ := convertAll_cons_eq_ok hc
    have hrule : rule ∈ g.rules := hrules rule (by simp)
    have c : Converted g w rule right after := valid.convert hcf hrule hone
    have hrest' : ∀ r ∈ rest, r ∈ g.rules := by
      intro r hr
      exact hrules r (by simp [hr])
    exact .cons hrule c (ih c.valid hrest' hrest)

theorem Converted.mem_minted {right : List Symbol} {after : Workshop}
    (c : Converted g w rule right after) (hh : h ∈ after.minted) :
    h ∈ w.minted ∨ h ∈ after.minted.drop w.minted.length := by
  obtain ⟨more, hmore⟩ := c.minted_extends
  rw [← hmore] at hh ⊢
  rw [List.drop_left]
  exact List.mem_append.1 hh

namespace Converts

theorem valid (c : Converts g w rules out last) : Valid g last := by
  induction c with
  | nil hvalid => exact hvalid
  | cons _ _ _ ih => exact ih

theorem subset (c : Converts g w rules out last) :
    w.known ⊆ last.known ∧ w.minted ⊆ last.minted := by
  induction c with
  | nil _ => exact ⟨List.Subset.refl _, List.Subset.refl _⟩
  | cons _ hstep _ ih =>
    exact ⟨List.Subset.trans hstep.known_subset ih.1,
      List.Subset.trans hstep.minted_extends.subset ih.2⟩

theorem exists_right (c : Converts g w rules out last) (hrule : rule ∈ rules) :
    ∃ right, ⟨rule.left, right⟩ ∈ out ∧ Folds last.known rule.right right := by
  induction c with
  | nil _ => cases hrule
  | @cons _ _ _ _ _ _ right _ hstep hrest ih =>
    rcases List.mem_cons.1 hrule with rfl | hrule
    · exact ⟨right, by simp, hstep.folds.mono hrest.subset.1⟩
    · obtain ⟨right', hmem, hfolds⟩ := ih hrule
      exact ⟨right', by simp [hmem], hfolds⟩

/-- A rule that is there in the end is a converted one, or the rule of a helper that was made. -/
theorem origin (c : Converts g w rules out last) (hr : r ∈ out) :
    (∃ rule ∈ g.rules, r.left = rule.left ∧ Folds last.known rule.right r.right ∧
      Short g last.minted r.right) ∨ ∃ h ∈ last.minted, r = h.rule := by
  induction c with
  | nil _ => cases hr
  | @cons _ _ _ rule _ _ _ hrule hstep hrest ih =>
    obtain ⟨hknown, hminted⟩ := hrest.subset
    rcases List.mem_append.1 hr with hr | hr
    · rcases List.mem_cons.1 hr with rfl | hr
      · exact .inl ⟨rule, hrule, rfl, hstep.folds.mono hknown, hstep.short.mono hminted⟩
      · obtain ⟨h, hh, rfl⟩ := List.mem_map.1 hr
        exact .inr ⟨h, hminted (List.mem_of_mem_drop hh), rfl⟩
    · exact ih hr

theorem kept (c : Converts g w rules out last) (hrule : rule ∈ rules)
    (hnormal : g.isNormal rule = true) : rule ∈ out := by
  induction c with
  | nil _ => cases hrule
  | cons _ hstep _ ih =>
    rcases List.mem_cons.1 hrule with rfl | hrule
    · simp [hstep.normal_kept hnormal]
    · simp [ih hrule]

theorem rule_of_new (c : Converts g w rules out last) (hh : h ∈ last.known) :
    h ∈ w.known ∨ h ∈ w.minted ∨ h.rule ∈ out := by
  induction c with
  | nil _ => exact .inl hh
  | @cons w after last rule rest out right _ hstep _ ih =>
    have hmade : h ∈ after.minted → h ∈ w.minted ∨ h.rule ∈
        ⟨rule.left, right⟩ :: (after.minted.drop w.minted.length).map Helper.rule ++ out := by
      intro hh
      rcases hstep.mem_minted hh with hh | hh
      · exact .inl hh
      · have hrule : h.rule ∈ (after.minted.drop w.minted.length).map Helper.rule :=
          List.mem_map_of_mem hh
        exact .inr (List.mem_append_left _ (List.mem_cons_of_mem _ hrule))
    rcases ih hh with hh | hh | hh
    · rcases hstep.known_new h hh with hh | hh | ⟨hleft, rfl⟩
      · exact .inl hh
      · exact .inr (hmade hh)
      · exact .inr (.inr (by simp [Helper.rule, Rule.ofHead, hleft]))
    · exact .inr (hmade hh)
    · exact .inr (.inr (by simp [hh]))

/-- A helper that is made is found behind the right side of the rule for which it was made. -/
theorem minted_within (c : Converts g w rules out last) (hh : h ∈ last.minted) :
    h ∈ w.minted ∨ ∃ rule ∈ g.rules, ∃ right, ⟨rule.left, right⟩ ∈ out ∧
      Within last.known right h.symbol := by
  induction c with
  | nil _ => exact .inl hh
  | @cons _ _ _ rule _ _ right hrule hstep hrest ih =>
    rcases ih hh with hh | ⟨rule', hrule', right', hmem, hwithin⟩
    · refine (hstep.minted_new h hh).imp_right fun hwithin => ?_
      have hlast := hwithin.mono hrest.subset.1 (List.Subset.refl _)
      exact ⟨rule, hrule, right, by simp, hlast⟩
    · exact .inr ⟨rule', hrule', right', by simp [hmem], hwithin⟩

/-- A declared symbol has as many rules as before. -/
theorem length_rulesOf (c : Converts g w rules out last) (hx : x ∈ g.nonterminals) :
    (out.filter fun r => decide (r.head? = some x)).length =
      (rules.filter fun r => decide (r.head? = some x)).length := by
  induction c with
  | nil _ => rfl
  | @cons w after last rule rest out right _ hstep _ ih =>
    -- what is made for the rule are rules of new symbols
    have hmade : ((after.minted.drop w.minted.length).map Helper.rule).filter
        (fun r => decide (r.head? = some x)) = [] := by
      rw [List.filter_eq_nil_iff]
      intro r hr
      obtain ⟨h, hh, rfl⟩ := List.mem_map.1 hr
      have hfresh := (hstep.valid.minted_fresh h (List.mem_of_mem_drop hh)).1
      rw [decide_eq_true_eq, Helper.rule, Rule.head?_ofHead, Option.some.injEq]
      exact fun he => hfresh (he ▸ hx)
    have hhead : (⟨rule.left, right⟩ : Rule).head? = rule.head? := rfl
    rw [List.cons_append, List.filter_cons, List.filter_cons, List.filter_append, hmade, hhead,
      List.nil_append]
    split
    · exact congrArg Nat.succ ih
    · exact ih

end Converts

end Workshop

open Workshop

/-! ## A grammar and its normal form -/

/-- How a grammar `h` in normal form belongs to the grammar `g` that it was made from, and to the
helpers that are known in the end. -/
structure IsNormalFormOf (w : Workshop) (g h : Grammar) : Prop where
  valid : Valid g w
  start_eq : h.start = g.start
  mem_nonterminals : ∀ x, x ∈ h.nonterminals ↔ x ∈ g.nonterminals ∨ ∃ k ∈ w.minted, k.symbol = x
  terminals_eq : h.terminals = g.terminals
  exists_right : ∀ rule ∈ g.rules,
    ∃ right, ⟨rule.left, right⟩ ∈ h.rules ∧ Folds w.known rule.right right
  origin : ∀ r ∈ h.rules,
    (∃ rule ∈ g.rules, r.left = rule.left ∧ Folds w.known rule.right r.right ∧
      Short g w.minted r.right) ∨ ∃ k ∈ w.minted, r = k.rule
  minted_within : ∀ k ∈ w.minted, ∃ rule ∈ g.rules, ∃ right, ⟨rule.left, right⟩ ∈ h.rules ∧
    Within w.known right k.symbol
  rule_mem : ∀ k ∈ w.known, k.rule ∈ h.rules
  rule_unique : ∀ k ∈ w.known, ∀ r ∈ h.rulesOf k.symbol, r = k.rule

namespace Grammar

variable {g h : Grammar} {w : Workshop} {rules : List Rule} {rule : Rule} {k : Helper} {x : Symbol}
  {xs ys v : List Symbol}

/-- Where every rule is converted, each helper has its own rule and no other: that of a new helper
is made with it, and a declared one has as many rules as before, which is one. -/
theorem eq_rule_of_known (hcf : g.isContextFree = true)
    (c : Converts g (.ofGrammar g) g.rules h.rules w) (hk : k ∈ w.known) :
    k.rule ∈ h.rules ∧ ∀ r ∈ h.rulesOf k.symbol, r = k.rule := by
  have hrule : k.rule ∈ h.rules := by
    rcases c.rule_of_new hk with hk | hk | hk
    · obtain ⟨-, hrule, hnormal⟩ := brought_of_mem_known hk
      exact c.kept hrule hnormal
    · rw [minted_ofGrammar] at hk
      cases hk
    · exact hk
  refine ⟨hrule, fun r hr => ?_⟩
  rcases c.valid.known_origin k hk with hk | ⟨hk, hsingle⟩
  · obtain ⟨hr, hleft⟩ := mem_rulesOf_iff_left.1 hr
    rcases c.origin hr with ⟨rule, hrule, hl, -⟩ | ⟨k', hk', rfl⟩
    · obtain ⟨x, hx, hxl⟩ := isContextFree_iff.1 hcf rule hrule
      rw [← hl, hleft, List.singleton_inj] at hxl
      exact absurd (hxl ▸ hx) (c.valid.minted_fresh k hk).1
    · have hsymbol : k'.symbol = k.symbol := List.singleton_inj.1 hleft
      rw [(List.inj_on_of_nodup_map c.valid.minted_nodup) hk' hk hsymbol]
  · have hlen : (h.rulesOf k.symbol).length = 1 :=
      (c.length_rulesOf hk).trans (beq_iff_eq.1 hsingle)
    obtain ⟨r', hr'⟩ := List.length_eq_one_iff.1 hlen
    have hself := ofHead_mem_rulesOf.2 hrule
    rw [hr', List.mem_singleton] at hr hself
    exact hr.trans hself.symm

/-- What is made in normal form comes of converting all rules, and belongs to what it was made
from. -/
theorem normalForm_converts (hcf : g.isContextFree = true) (hh : g.normalForm.result = .ok h) :
    ∃ w, ((ofGrammar g).convertAll g g.rules).result = .ok (h.rules, w) ∧ IsNormalFormOf w g h := by
  obtain ⟨⟨rules, w⟩, hc, hb⟩ := Traced.result_bind_eq_ok_iff.1 hh
  have c := (valid_ofGrammar hcf).convertAll hcf (fun _ hr => hr) hc
  have hfresh : ∀ k ∈ w.minted, k.symbol ∉ g.nonterminals := fun k hk =>
    (c.valid.minted_fresh k hk).1
  obtain ⟨hs, hn, ht, rfl⟩ := Stage.parts_of_build
    (Workshop.nodup_nonterminals c.valid.minted_nodup hfresh) g.nodup_terminals hb
  exact ⟨w, hc,
    { valid := c.valid
      start_eq := hs
      mem_nonterminals := fun x => by simp [hn]
      terminals_eq := ht
      exists_right := fun _ hrule => c.exists_right hrule
      origin := fun _ hr => c.origin hr
      minted_within := fun k hk => (c.minted_within hk).resolve_left (by simp)
      rule_mem := fun _ hk => (eq_rule_of_known hcf c hk).1
      rule_unique := fun _ hk => (eq_rule_of_known hcf c hk).2 }⟩

theorem normalForm_eq_ok (hcf : g.isContextFree = true) (hh : g.normalForm.result = .ok h) :
    ∃ w, IsNormalFormOf w g h := by
  obtain ⟨w, -, n⟩ := normalForm_converts hcf hh
  exact ⟨w, n⟩

end Grammar

namespace IsNormalFormOf

open Grammar

variable {g h : Grammar} {w : Workshop} {rule : Rule} {k : Helper} {x : Symbol}
  {xs ys v : List Symbol}

/-! ## What the normal form derives -/

theorem symbol_mem (n : IsNormalFormOf w g h) (hk : k ∈ w.known) : k.symbol ∈ h.nonterminals := by
  refine (n.mem_nonterminals _).2 ?_
  rcases n.valid.known_origin k hk with hk | ⟨hk, -⟩
  · exact .inr ⟨k, hk, rfl⟩
  · exact .inl hk

/-- What is folded derives what it derived before. -/
theorem derives_of_folds (n : IsNormalFormOf w g h) (f : Folds w.known xs ys)
    (d : h.Derives xs v) : h.Derives ys v := by
  induction f with
  | refl => exact d
  | step hk _ ih =>
    obtain ⟨v₁, v₂, rfl, d₁, d₂⟩ := derives_append_iff.1 ih
    obtain ⟨u₁, u₂, rfl, dk, d₃⟩ := derives_append_iff.1 d₂
    have dk := Derives.of_ofHead (n.rule_mem _ hk) dk
    exact derives_append_iff.2 ⟨v₁, _, rfl, d₁, derives_cons_iff.2 ⟨u₁, u₂, rfl, dk, d₃⟩⟩

/-- What is folded derives nothing new, and takes no fewer replacements for it. -/
theorem derivesWith_of_folds (n : IsNormalFormOf w g h) (f : Folds w.known xs ys) {height size : Nat}
    (d : h.DerivesWith ys v height size) :
    ∃ height' size', size' ≤ size ∧ h.DerivesWith xs v height' size' := by
  induction f generalizing v height size with
  | refl => exact ⟨height, size, Nat.le_refl _, d⟩
  | @step front back k hk _ ih =>
    obtain ⟨v₁, v₂, h₁, h₂, n₁, n₂, rfl, -, rfl, d₁, d₂⟩ := d.split
    have hmem := n.symbol_mem hk
    generalize hsymbol : k.symbol = x at d₂ hmem
    cases d₂ with
    | epsilon _ => exact absurd rfl (ne_epsilon_of_mem_nonterminals hmem)
    | terminal ha _ => exact absurd ha (not_mem_terminals hmem)
    | @expand _ rule _ u₁ u₂ _ _ m₁ m₂ hrule dr d₃ =>
      rw [n.rule_unique k hk rule (hsymbol ▸ hrule)] at dr
      obtain ⟨height', size', hle, d'⟩ := ih (d₁.append (dr.append d₃))
      exact ⟨height', size', by omega, d'⟩

/-- **The declared symbols derive what they derived before.** -/
theorem derives_iff (n : IsNormalFormOf w g h)
    (hxs : ∀ x ∈ xs, x ≠ Symbol.epsilon → x ∈ g.nonterminals ++ g.terminals) :
    h.Derives xs v ↔ g.Derives xs v := by
  constructor
  · rintro ⟨height, size, d⟩
    refine d.follow (P := (· ∈ g.nonterminals ++ g.terminals))
      (fun a ha _ => n.terminals_eq ▸ ha) ?_ hxs
    intro x r v height size hx hr dr
    obtain ⟨hr, hleft⟩ := mem_rulesOf_iff_left.1 hr
    rcases n.origin r hr with ⟨rule, hrule, hl, hfolds, -⟩ | ⟨k, hk, rfl⟩
    · exact ⟨rule, mem_rulesOf_iff_left.2 ⟨hrule, hl ▸ hleft⟩,
        fun y hy hε => declared_of_mem_right hrule hy hε, n.derivesWith_of_folds hfolds dr⟩
    · obtain rfl := List.singleton_inj.1 hleft
      have hfresh := n.valid.minted_fresh k hk
      exact absurd hx (by simpa using hfresh)
  · intro d
    refine d.replay (fun a ha => n.terminals_eq ▸ ha) ?_
    intro x rule v hmem _ dv
    obtain ⟨hrule, hleft⟩ := mem_rulesOf_iff_left.1 hmem
    obtain ⟨right, hright, hfolds⟩ := n.exists_right rule hrule
    rw [hleft] at hright
    exact .of_ofHead hright (n.derives_of_folds hfolds dv)

/-! ## Its shape -/

theorem mem_of_grounded (n : IsNormalFormOf w g h) (hx : Grounded g w.minted x) :
    x ∈ h.nonterminals :=
  (n.mem_nonterminals x).2 hx.declared_or_minted

theorem normal_of_short (n : IsNormalFormOf w g h) {right : List Symbol}
    (hshort : Short g w.minted right) : (∃ a ∈ h.terminals, right = [a]) ∨
      ∃ y ∈ h.nonterminals, ∃ z ∈ h.nonterminals, right = [y, z] := by
  rcases hshort with ⟨a, ha, rfl⟩ | ⟨y, z, hy, hz, rfl⟩
  · exact .inl ⟨a, n.terminals_eq ▸ ha, rfl⟩
  · exact .inr ⟨y, n.mem_of_grounded hy, z, n.mem_of_grounded hz, rfl⟩

/-- **Every rule is in normal form.** -/
theorem allNormal (n : IsNormalFormOf w g h) (hcf : g.isContextFree = true) : h.AllNormal := by
  rintro ⟨left, right⟩ hr
  obtain ⟨x, hx, rfl, hshort⟩ :
      ∃ x ∈ h.nonterminals, left = [x] ∧ Short g w.minted right := by
    rcases n.origin _ hr with ⟨rule, hrule, rfl, -, hshort⟩ | ⟨k, hk, he⟩
    · obtain ⟨x, hx, hleft⟩ := isContextFree_iff.1 hcf rule hrule
      exact ⟨x, (n.mem_nonterminals x).2 (.inl hx), hleft, hshort⟩
    · obtain ⟨rfl, rfl⟩ := Rule.mk.inj he
      have hknown := n.valid.minted_subset hk
      exact ⟨k.symbol, n.symbol_mem hknown, rfl, n.valid.known_short k hknown⟩
  refine ⟨x, hx, ?_⟩
  rcases n.normal_of_short hshort with ⟨a, ha, rfl⟩ | ⟨y, hy, z, hz, rfl⟩
  · exact .inl ⟨a, ha, rfl⟩
  · exact .inr ⟨y, hy, z, hz, rfl⟩

/-- **Every nonterminal derives a word**, if the declared ones did before: a new helper derives what
the symbols of its right side derive. -/
theorem allProductive (n : IsNormalFormOf w g h) (hg : g.AllProductive) : h.AllProductive := by
  have hground : ∀ x, Grounded g w.minted x → h.IsProductive x := by
    intro x hx
    induction hx with
    | @declared x hx =>
      obtain ⟨v, d⟩ := hg x hx
      refine ⟨v, (n.derives_iff ?_).2 d⟩
      simp [hx]
    | @helper k hk hpattern ih =>
      have hall : ∀ y ∈ k.pattern, h.IsProductive y := by
        intro y hy
        by_cases ha : y ∈ g.terminals
        · exact ⟨[y], derives_terminal (n.terminals_eq ▸ ha)⟩
        · exact ih y hy ha
      obtain ⟨v, d⟩ := exists_derives hall
      exact ⟨v, .of_ofHead (n.rule_mem k (n.valid.minted_subset hk)) d⟩
  intro x hx
  rcases (n.mem_nonterminals x).1 hx with hx | ⟨k, hk, rfl⟩
  · exact hground x (.declared hx)
  · exact hground _ (n.valid.minted_grounded k hk)

end IsNormalFormOf

end NormalGrammar
