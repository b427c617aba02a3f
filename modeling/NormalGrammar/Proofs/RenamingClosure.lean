import Mathlib
import NormalGrammar.Proofs.Settling

/-!
# The rules that inlining renamings leaves

While renamings are inlined, a renaming gives way to others, but to none that would lead back to its
head, and to none that is there already.  None of this shows in the end, also where renamings go in
circles.

* The other rules stay where they are, in front (`others_prefix_run`), and no rule comes to be there
  twice (`nodup_run`).
* `Grammar.renamingFree_closure`: the rules in the end are the closure of the other rules under
  renamings, which is said without reference to how it came about.
-/

namespace NormalGrammar

open Sequence

namespace RenamingFree

open Grammar

variable {g : Grammar} {rules result : List Rule} {unit : Rule} {head : Symbol} {limit passes : Nat}

/-- The rules that are no renamings, in order. -/
def others (g : Grammar) (rules : List Rule) : List Rule :=
  rules.filter fun rule => !g.isRenaming rule

theorem others_eq_self (hno : ∀ rule ∈ rules, g.isRenaming rule = false) : others g rules = rules :=
  List.filter_eq_self.2 fun rule hrule => by rw [hno rule hrule, Bool.not_false]

/-- **Inlining moves no other rule**: those it adds come after them. -/
theorem others_prefix_inline (hren : g.isRenaming unit = true) :
    others g rules <+: others g (inline rules unit head) := by
  have hunit : unit ∉ others g rules := by
    intro hmem
    have hno := (List.mem_filter.1 hmem).2
    rw [hren] at hno
    exact Bool.false_ne_true hno
  have herase : others g (rules.erase unit) = others g rules := by
    rw [others, ← List.erase_filter]
    exact List.erase_of_not_mem hunit
  rw [inline, others, others, List.filter_append]
  exact ⟨_, congrArg (· ++ _) herase.symm⟩

/-- So they are in front when no renaming is left. -/
theorem others_prefix_run (hheaded : AllHeaded g rules)
    (h : (run g limit passes rules).result = .ok result) : others g rules <+: result := by
  obtain ⟨-, hno, hprefix⟩ := run_keeps (P := fun rs => others g rules <+: others g rs)
    (fun _ _ y _ hy _ hrs => hrs.trans (others_prefix_inline (isRenaming_iff.2 ⟨y, hy, rfl⟩)))
    hheaded h List.prefix_rfl
  rwa [others_eq_self hno] at hprefix

/-- **No rule is there twice** in the end, if none was in the beginning. -/
theorem nodup_run (hnodup : rules.Nodup) (hheaded : AllHeaded g rules)
    (h : (run g limit passes rules).result = .ok result) : result.Nodup := by
  obtain ⟨-, -, hresult⟩ :=
    run_keeps (fun _ _ _ _ _ _ hrs => nodup_inline hrs rfl) hheaded h hnodup
  exact hresult

end RenamingFree

namespace Grammar

open RenamingFree

variable {g h : Grammar} {limit : Nat}

theorem nodup_rules_renamingFree (hcf : g.isContextFree = true)
    (hh : (g.renamingFree limit).result = .ok h) : h.rules.Nodup :=
  nodup_run (nodup_distinct _) (allHeaded_distinct hcf) (renamingFree_eq_ok hh).2.2.2

/-- **Inlining is closure under renamings**: the rules that are no renamings come first, each once
and in order, and together with those that follow they are the rules `x → w` for which `x` becomes,
by any number of renamings, some `y` with the rule `y → w`, which is no renaming. -/
theorem renamingFree_closure (hcf : g.isContextFree = true)
    (hh : (g.renamingFree limit).result = .ok h) :
    h.start = g.start ∧ h.nonterminals = g.nonterminals ∧ h.terminals = g.terminals ∧
      h.NoRenamings ∧ h.rules.Nodup ∧
      distinct (g.rules.filter fun rule => !g.isRenaming rule) <+: h.rules ∧
      ∀ rule, rule ∈ h.rules ↔ ∃ x y w, rule = .ofHead x w ∧ g.Renames x y ∧
        .ofHead y w ∈ g.rules ∧ ∀ z ∈ g.nonterminals, w ≠ [z] := by
  obtain ⟨hs, hn, ht, hrun⟩ := renamingFree_eq_ok hh
  refine ⟨hs, hn, ht, noRenamings_renamingFree hcf hh, nodup_rules_renamingFree hcf hh, ?_, ?_⟩
  · rw [distinct_filter]
    exact others_prefix_run (allHeaded_distinct hcf) hrun
  · intro rule
    rw [mem_rules_renamingFree hcf hh]
    constructor
    · rintro ⟨x, -, hleft, t⟩
      obtain ⟨y, hxy, hrule, hno⟩ := takes_iff.1 t
      exact ⟨x, y, rule.right, by rw [Rule.ofHead, ← hleft], hxy, hrule, hno⟩
    · rintro ⟨x, y, w, rfl, hxy, hrule, hno⟩
      have hx : ∃ right, .ofHead x right ∈ g.rules := by
        cases hxy with
        | refl => exact ⟨w, hrule⟩
        | step hstep _ _ => exact ⟨_, hstep⟩
      obtain ⟨right, hx⟩ := hx
      exact ⟨x, mem_nonterminals_of_mem_rulesOf hcf (ofHead_mem_rulesOf.2 hx), rfl,
        takes_iff.2 ⟨y, hxy, hrule, hno⟩⟩

/-- Renamings in a circle, one of them to itself, and a rule that is there twice. -/
def circle : Grammar where
  start := ⟨"X"⟩
  nonterminals := [⟨"X"⟩, ⟨"Y"⟩, ⟨"Z"⟩]
  terminals := [⟨"y"⟩, ⟨"z"⟩]
  rules := [.ofHead ⟨"X"⟩ [⟨"Y"⟩], .ofHead ⟨"Y"⟩ [⟨"Z"⟩], .ofHead ⟨"Y"⟩ [⟨"y"⟩],
    .ofHead ⟨"Z"⟩ [⟨"Y"⟩], .ofHead ⟨"Z"⟩ [⟨"z"⟩, ⟨"X"⟩], .ofHead ⟨"Y"⟩ [⟨"y"⟩],
    .ofHead ⟨"X"⟩ [⟨"X"⟩]]
  nodup_nonterminals := by decide
  nodup_terminals := by decide
  wellFormed := defect?_eq_none_iff.1 (by decide)

/-- What `circle` becomes. -/
def circleFree : Grammar where
  start := ⟨"X"⟩
  nonterminals := [⟨"X"⟩, ⟨"Y"⟩, ⟨"Z"⟩]
  terminals := [⟨"y"⟩, ⟨"z"⟩]
  rules := [.ofHead ⟨"Y"⟩ [⟨"y"⟩], .ofHead ⟨"Z"⟩ [⟨"z"⟩, ⟨"X"⟩], .ofHead ⟨"X"⟩ [⟨"y"⟩],
    .ofHead ⟨"Y"⟩ [⟨"z"⟩, ⟨"X"⟩], .ofHead ⟨"Z"⟩ [⟨"y"⟩], .ofHead ⟨"X"⟩ [⟨"z"⟩, ⟨"X"⟩]]
  nodup_nonterminals := by decide
  nodup_terminals := by decide
  wellFormed := defect?_eq_none_iff.1 (by decide)

/-- The closure for `circle`: `X → z X` is there, as `X` becomes `Z`. -/
theorem circle_closure : circle.isContextFree = true ∧
    (circle.renamingFree 10).result = .ok circleFree ∧ circleFree.rules.Nodup ∧
    ∃ x y w, Rule.ofHead ⟨"X"⟩ [⟨"z"⟩, ⟨"X"⟩] = .ofHead x w ∧ circle.Renames x y ∧
      .ofHead y w ∈ circle.rules ∧ ∀ z ∈ circle.nonterminals, w ≠ [z] := by
  have hcf : circle.isContextFree = true := by decide
  have hh : (circle.renamingFree 10).result = .ok circleFree := by decide_cbv
  obtain ⟨-, -, -, -, hnodup, -, hmem⟩ := renamingFree_closure hcf hh
  exact ⟨hcf, hh, hnodup, (hmem _).1 (by decide)⟩

end Grammar

end NormalGrammar
