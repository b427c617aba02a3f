import NormalGrammar.Normal.RenamingFree
import NormalGrammar.Proofs.Simulation

/-!
# Grammars without renamings

Which rules are left when renamings have been inlined, and what they derive.

* `RenamingFree.Takes` is the closure that inlining is about: `x` takes a right side from itself or
  from a symbol that it can be renamed to.  One inlining changes no such right side
  (`takes_inline_iff`), although it removes renamings, adds others and drops some of those.
* `mem_rules_renamingFree`: the rules in the end are exactly the right sides that heads take.
* `derives_renamingFree_iff`: every sequence derives what it derived before.
-/

namespace NormalGrammar

open Sequence

@[simp]
theorem Sequence.hasSequence_iff {α : Type} [DecidableEq α] {collection : List (List α)}
    {sequence : List α} : hasSequence collection sequence = true ↔ sequence ∈ collection := by
  simp only [hasSequence, List.any_eq_true, beq_iff_eq, exists_eq_right]

namespace RenamingFree

open Grammar

variable {g : Grammar} {rules : List Rule} {unit rule : Rule} {head x y : Symbol}
  {right : List Symbol}

/-! ## What heads take over -/

/-- By the given rules, `x` takes over the right side `right`, which is no renaming: it is one of
its own, or one that a symbol takes over to which `x` is renamed. -/
inductive Takes (g : Grammar) (rules : List Rule) : Symbol → List Symbol → Prop
  | own {x : Symbol} {right : List Symbol} : Rule.ofHead x right ∈ rules →
      (∀ y ∈ g.nonterminals, right ≠ [y]) → Takes g rules x right
  | via {x y : Symbol} {right : List Symbol} : Rule.ofHead x [y] ∈ rules → y ∈ g.nonterminals →
      Takes g rules y right → Takes g rules x right

/-- What is taken over is a right side of a symbol that can be reached by renamings. -/
theorem takes_iff : Takes g g.rules x right ↔
    ∃ y, g.Renames x y ∧ Rule.ofHead y right ∈ g.rules ∧ ∀ z ∈ g.nonterminals, right ≠ [z] := by
  constructor
  · intro h
    induction h with
    | own hrule hno => exact ⟨_, .refl _, hrule, hno⟩
    | via hrule hy _ ih =>
      obtain ⟨z, hz, h⟩ := ih
      exact ⟨z, .step hrule hy hz, h⟩
  · rintro ⟨y, hxy, hrule, hno⟩
    induction hxy with
    | refl => exact .own hrule hno
    | step hstep hy _ ih => exact .via hstep hy (ih hrule)

theorem Takes.mono {rules more : List Rule} (hsub : rules ⊆ more) (t : Takes g rules x right) :
    Takes g more x right := by
  induction t with
  | own hmem hno => exact .own (hsub hmem) hno
  | via hmem hy _ ih => exact .via (hsub hmem) hy ih

theorem Takes.exists_rule (h : Takes g rules x right) :
    (∃ y, Rule.ofHead y right ∈ rules) ∧ ∀ z ∈ g.nonterminals, right ≠ [z] := by
  induction h with
  | own hrule hno => exact ⟨⟨_, hrule⟩, hno⟩
  | via _ _ _ ih => exact ih

/-! ## One inlining -/

theorem mem_rights_iff {left : List Symbol} :
    right ∈ (rules.filter fun rule => decide (rule.left = left)).map Rule.right ↔
      ⟨left, right⟩ ∈ rules := by
  simp only [List.mem_map, List.mem_filter, decide_eq_true_eq]
  exact ⟨fun ⟨rule, ⟨hrule, hl⟩, hr⟩ => by rw [← hl, ← hr]; exact hrule,
    fun h => ⟨_, ⟨h, rfl⟩, rfl⟩⟩

/-- What is inherited are the right sides of the target that the heir lacks, itself aside. -/
theorem mem_inherited_iff {left target : List Symbol} :
    right ∈ inherited rules left head target ↔
      ⟨target, right⟩ ∈ rules ∧ right ≠ [head] ∧ ⟨left, right⟩ ∉ rules := by
  rw [inherited, mem_distinct, List.mem_filter, mem_rights_iff, Bool.and_eq_true,
    decide_eq_true_eq, Bool.not_eq_true', ← Bool.not_eq_true, hasSequence_iff, mem_rights_iff]

theorem mem_inline_iff : rule ∈ inline rules unit head ↔ rule ∈ rules.erase unit ∨
    ∃ right, rule = .ofHead head right ∧ ⟨unit.right, right⟩ ∈ rules.erase unit ∧
      right ≠ [head] ∧ ⟨unit.left, right⟩ ∉ rules.erase unit := by
  simp only [inline, List.mem_append, List.mem_map, mem_inherited_iff]
  exact or_congr_right ⟨fun ⟨r, h, he⟩ => ⟨r, he.symm, h⟩, fun ⟨r, he, h⟩ => ⟨r, h, he.symm⟩⟩

/-- Inlining repeats no rule: what the head inherits it did not have. -/
theorem nodup_inline (hnodup : rules.Nodup) (hleft : unit.left = [head]) :
    (inline rules unit head).Nodup := by
  rw [inline, List.nodup_append]
  refine ⟨hnodup.erase unit, ?_, ?_⟩
  · refine List.pairwise_map.2 ((nodup_distinct _).imp fun hne he => hne ?_)
    exact (Rule.ofHead_inj.1 he).2
  · rintro rule hrule _ hmem rfl
    obtain ⟨right, hright, rfl⟩ := List.mem_map.1 hmem
    rw [hleft] at hright
    exact (mem_inherited_iff.1 hright).2.2 hrule

/-- After the inlining of `x → y`, whatever `y` takes over, `x` takes over. -/
theorem Takes.of_target (hx : x ∈ g.nonterminals)
    (h : Takes g (inline rules (.ofHead x [y]) x) y right) :
    Takes g (inline rules (.ofHead x [y]) x) x right := by
  -- a right side of the target is one of the head's own, or it is inherited
  have inherits : ∀ {r}, r ≠ [x] → Rule.ofHead y r ∈ inline rules (.ofHead x [y]) x →
      Rule.ofHead x r ∈ inline rules (.ofHead x [y]) x := by
    intro r hr hmem
    rcases mem_inline_iff.1 hmem with hy | ⟨r', he, -⟩
    · by_cases hown : Rule.ofHead x r ∈ rules.erase (.ofHead x [y])
      · exact mem_inline_iff.2 (.inl hown)
      · exact mem_inline_iff.2 (.inr ⟨r, rfl, hy, hr, hown⟩)
    · obtain ⟨rfl, -⟩ := Rule.ofHead_inj.1 he
      exact hmem
  cases h with
  | own hmem hno => exact .own (inherits (hno x hx) hmem) hno
  | @via _ z _ hmem hz htakes =>
    by_cases hzx : z = x
    · exact hzx ▸ htakes
    · exact .via (inherits (by simpa using hzx) hmem) hz htakes

/-- One inlining changes nothing about what heads take over. -/
theorem takes_inline_iff (hunit : Rule.ofHead x [y] ∈ rules) (hx : x ∈ g.nonterminals)
    (hy : y ∈ g.nonterminals) {z : Symbol} :
    Takes g (inline rules (.ofHead x [y]) x) z right ↔ Takes g rules z right := by
  constructor
  · intro h
    induction h with
    | own hmem hno =>
      rcases mem_inline_iff.1 hmem with hmem | ⟨r, he, hmem, -⟩
      · exact .own (List.mem_of_mem_erase hmem) hno
      · obtain ⟨rfl, rfl⟩ := Rule.ofHead_inj.1 he
        exact .via hunit hy (.own (List.mem_of_mem_erase hmem) hno)
    | via hmem hz _ ih =>
      rcases mem_inline_iff.1 hmem with hmem | ⟨r, he, hmem, -⟩
      · exact .via (List.mem_of_mem_erase hmem) hz ih
      · obtain ⟨rfl, rfl⟩ := Rule.ofHead_inj.1 he
        exact .via hunit hy (.via (List.mem_of_mem_erase hmem) hz ih)
  · intro h
    induction h with
    | @own z right hmem hno =>
      have hne : Rule.ofHead z right ≠ .ofHead x [y] := by
        intro he
        exact hno y hy (Rule.ofHead_inj.1 he).2
      exact .own (mem_inline_iff.2 (.inl ((List.mem_erase_of_ne hne).2 hmem))) hno
    | @via z z' right hmem hz _ ih =>
      by_cases he : Rule.ofHead z [z'] = .ofHead x [y]
      · obtain ⟨rfl, hz'⟩ := Rule.ofHead_inj.1 he
        obtain rfl := List.singleton_inj.1 hz'
        exact ih.of_target hx
      · exact .via (mem_inline_iff.2 (.inl ((List.mem_erase_of_ne he).2 hmem))) hz ih

/-! ## Running the inlining -/

section Run

variable {limit passes : Nat} {result : List Rule}

theorem run_of_none (h : rules.find? g.isRenaming = none) :
    (run g limit passes rules).result = .ok rules := by
  rw [run.eq_def]
  dsimp only
  rw [h]
  rfl

theorem run_zero (h : rules.find? g.isRenaming = some unit) :
    (run g limit 0 rules).result = .error (.unsettled .renamings limit) := by
  rw [run.eq_def]
  dsimp only
  rw [h]
  rfl

theorem run_succ (h : rules.find? g.isRenaming = some unit) (hhead : unit.head? = some head) :
    (run g limit (passes + 1) rules).result =
      (run g limit passes (inline rules unit head)).result := by
  rw [run.eq_def]
  dsimp only
  rw [h]
  simp [Stage.headOf, hhead, Except.bind]

/-- Every rule at hand rewrites one nonterminal. -/
def AllHeaded (g : Grammar) (rules : List Rule) : Prop :=
  ∀ rule ∈ rules, ∃ x ∈ g.nonterminals, rule.left = [x]

theorem allHeaded_distinct (hcf : g.isContextFree = true) : AllHeaded g (distinct g.rules) := by
  intro rule hrule
  exact isContextFree_iff.1 hcf rule (mem_distinct.1 hrule)

/-- The first renaming, if there is one, has a head and a target. -/
theorem AllHeaded.of_find (hheaded : AllHeaded g rules)
    (h : rules.find? g.isRenaming = some unit) :
    ∃ x ∈ g.nonterminals, ∃ y ∈ g.nonterminals, unit = .ofHead x [y] ∧ unit ∈ rules := by
  have hmem := List.mem_of_find?_eq_some h
  obtain ⟨y, hy, hright⟩ := isRenaming_iff.1 (List.find?_some h)
  obtain ⟨x, hx, hleft⟩ := hheaded unit hmem
  exact ⟨x, hx, y, hy, by rw [Rule.ofHead, ← hleft, ← hright], hmem⟩

theorem AllHeaded.inline (hheaded : AllHeaded g rules) (hhead : head ∈ g.nonterminals) :
    AllHeaded g (inline rules unit head) := by
  intro rule hrule
  rcases mem_inline_iff.1 hrule with hrule | ⟨right, rfl, -⟩
  · exact hheaded rule (List.mem_of_mem_erase hrule)
  · exact ⟨head, hhead, rfl⟩

/-- What one inlining keeps, a run keeps, and it ends without renamings. -/
theorem run_keeps {P : List Rule → Prop}
    (hstep : ∀ rules x y, x ∈ g.nonterminals → y ∈ g.nonterminals → Rule.ofHead x [y] ∈ rules →
      P rules → P (inline rules (.ofHead x [y]) x))
    (hheaded : AllHeaded g rules) (h : (run g limit passes rules).result = .ok result)
    (hP : P rules) :
    AllHeaded g result ∧ (∀ rule ∈ result, g.isRenaming rule = false) ∧ P result := by
  fun_induction run g limit passes rules with
  | case1 passes rules hf =>
    obtain rfl := Except.ok.inj h
    rw [List.find?_eq_none] at hf
    exact ⟨hheaded, fun rule hrule => by simpa using hf rule hrule, hP⟩
  | case2 => cases h
  | case3 rules unit hf passes ih =>
    obtain ⟨x, hx, y, hy, rfl, hmem⟩ := hheaded.of_find hf
    obtain ⟨head, hhead, h⟩ := Traced.result_bind_eq_ok_iff.1 h
    obtain ⟨-, -, h⟩ := Traced.result_bind_eq_ok_iff.1 h
    rw [Traced.result_monadLift, Stage.headOf_eq_ok_iff, Rule.head?_ofHead] at hhead
    obtain rfl := Option.some.inj hhead
    exact ih x (hheaded.inline hx) h (hstep rules x y hx hy hmem hP)

theorem takes_run_iff (hheaded : AllHeaded g rules)
    (h : (run g limit passes rules).result = .ok result) :
    AllHeaded g result ∧ (∀ rule ∈ result, g.isRenaming rule = false) ∧
      ∀ x right, Takes g result x right ↔ Takes g rules x right := by
  refine run_keeps (P := fun rs => ∀ x right, Takes g rs x right ↔ Takes g rules x right)
    ?_ hheaded h fun _ _ => Iff.rfl
  intro rs x y hx hy hmem htakes z right
  exact (takes_inline_iff hmem hx hy).trans (htakes z right)

/-- **The rules that inlining leaves** are the right sides that nonterminals take over. -/
theorem mem_run_iff (hcf : g.isContextFree = true)
    (h : (run g limit passes (distinct g.rules)).result = .ok result) :
    rule ∈ result ↔ ∃ x ∈ g.nonterminals, rule.left = [x] ∧ Takes g g.rules x rule.right := by
  obtain ⟨hheaded', hno, htakes⟩ := takes_run_iff (allHeaded_distinct hcf) h
  have hsame : ∀ {x right}, Takes g result x right ↔ Takes g g.rules x right :=
    (htakes _ _).trans ⟨Takes.mono fun r hr => mem_distinct.1 hr,
      Takes.mono fun r hr => mem_distinct.2 hr⟩
  constructor
  · intro hrule
    obtain ⟨x, hx, hleft⟩ := hheaded' rule hrule
    refine ⟨x, hx, hleft, hsame.1 (.own (by rw [Rule.ofHead, ← hleft]; exact hrule) ?_)⟩
    intro y hy hright
    exact Bool.false_ne_true ((hno rule hrule).symm.trans (isRenaming_iff.2 ⟨y, hy, hright⟩))
  · rintro ⟨x, hx, hleft, t⟩
    cases hsame.2 t with
    | own hmem _ =>
      rw [Rule.ofHead, ← hleft] at hmem
      exact hmem
    | via hmem hy _ =>
      exact absurd ((hno _ hmem).symm.trans (isRenaming_iff.2 ⟨_, hy, rfl⟩)) Bool.false_ne_true

end Run

end RenamingFree

namespace Grammar

open RenamingFree

variable {g h : Grammar} {limit : Nat} {rule : Rule} {x : Symbol} {right xs w : List Symbol}

/-- The grammar without renamings has the parts of the given one, its rules aside. -/
theorem renamingFree_eq_ok (hh : (g.renamingFree limit).result = .ok h) :
    h.start = g.start ∧ h.nonterminals = g.nonterminals ∧ h.terminals = g.terminals ∧
      (run g limit limit (distinct g.rules)).result = .ok h.rules :=
  Stage.parts_of_new_rules hh

/-- The rules without renamings are the right sides that nonterminals take over. -/
theorem mem_rules_renamingFree (hcf : g.isContextFree = true)
    (hh : (g.renamingFree limit).result = .ok h) :
    rule ∈ h.rules ↔ ∃ x ∈ g.nonterminals, rule.left = [x] ∧ Takes g g.rules x rule.right :=
  mem_run_iff hcf (renamingFree_eq_ok hh).2.2.2

theorem mem_rulesOf_renamingFree (hcf : g.isContextFree = true)
    (hh : (g.renamingFree limit).result = .ok h) :
    rule ∈ h.rulesOf x ↔ x ∈ g.nonterminals ∧ rule.left = [x] ∧ Takes g g.rules x rule.right := by
  rw [mem_rulesOf_iff_left, mem_rules_renamingFree hcf hh]
  constructor
  · rintro ⟨⟨y, hy, hleft, t⟩, hx⟩
    obtain rfl : x = y := List.singleton_inj.1 (hx.symm.trans hleft)
    exact ⟨hy, hx, t⟩
  · rintro ⟨hx, hleft, t⟩
    exact ⟨⟨x, hx, hleft, t⟩, hleft⟩

theorem noRenamings_renamingFree (hcf : g.isContextFree = true)
    (hh : (g.renamingFree limit).result = .ok h) : h.NoRenamings := by
  intro rule hrule x hx
  obtain ⟨_, _, _, t⟩ := (mem_rules_renamingFree hcf hh).1 hrule
  obtain ⟨-, hn, -, -⟩ := renamingFree_eq_ok hh
  exact t.exists_rule.2 x (hn ▸ hx)

theorem isContextFree_renamingFree (hcf : g.isContextFree = true)
    (hh : (g.renamingFree limit).result = .ok h) : h.isContextFree = true := by
  refine isContextFree_iff.2 fun rule hrule => ?_
  obtain ⟨x, hx, hleft, -⟩ := (mem_rules_renamingFree hcf hh).1 hrule
  obtain ⟨-, hn, -, -⟩ := renamingFree_eq_ok hh
  exact ⟨x, hn ▸ hx, hleft⟩

theorem noEmptyRules_renamingFree (hcf : g.isContextFree = true) (hg : g.NoEmptyRules)
    (hh : (g.renamingFree limit).result = .ok h) : h.NoEmptyRules := by
  intro rule hrule
  obtain ⟨_, _, _, t⟩ := (mem_rules_renamingFree hcf hh).1 hrule
  obtain ⟨⟨y, hy⟩, -⟩ := t.exists_rule
  exact hg (.ofHead y rule.right) hy

/-- **Inlining renamings** changes no derived words. -/
theorem derives_renamingFree_iff (hcf : g.isContextFree = true)
    (hh : (g.renamingFree limit).result = .ok h) : h.Derives xs w ↔ g.Derives xs w := by
  obtain ⟨-, hn, ht, -⟩ := renamingFree_eq_ok hh
  constructor
  · intro d
    refine d.replay (fun a ha => ht ▸ ha) ?_
    intro x rule v hmem _ dv
    obtain ⟨-, -, t⟩ := (mem_rulesOf_renamingFree hcf hh).1 hmem
    clear hmem
    generalize rule.right = right at t dv
    induction t with
    | own hmem _ => exact .of_ofHead hmem dv
    | via hmem _ _ ih => exact .of_ofHead hmem (ih dv)
  · intro d
    refine d.replay (fun a ha => ht ▸ ha) ?_
    intro x rule v hmem _ dv
    have hx := mem_nonterminals_of_mem_rulesOf hcf hmem
    obtain ⟨hrule, hleft⟩ := mem_rulesOf_iff_left.1 hmem
    -- a renaming is not there any more, but its target's right sides are
    obtain ⟨r, t, dr⟩ : ∃ r, Takes g g.rules x r ∧ h.Derives r v := by
      have hrule : Rule.ofHead x rule.right ∈ g.rules := by rw [Rule.ofHead, ← hleft]; exact hrule
      by_cases hren : ∃ y ∈ g.nonterminals, rule.right = [y]
      · obtain ⟨y, hy, hright⟩ := hren
        rw [hright] at dv hrule
        obtain ⟨s, hs, ds⟩ := (derives_nonterminal_iff (hn ▸ hy)).1 dv
        obtain ⟨-, -, t⟩ := (mem_rulesOf_renamingFree hcf hh).1 hs
        exact ⟨s.right, .via hrule hy t, ds⟩
      · exact ⟨rule.right, .own hrule fun y hy hr => hren ⟨y, hy, hr⟩, dv⟩
    exact .of_ofHead ((mem_rules_renamingFree hcf hh).2 ⟨x, hx, rfl, t⟩) dr

end Grammar

end NormalGrammar
