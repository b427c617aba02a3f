import NormalGrammar.Normal.Pipeline
import NormalGrammar.Proofs.NormalSteps

/-!
# Whom a failure blames

* What a stage made is refused if its parts have a defect (`Stage.build_eq_error_iff`), and not if
  they fit together (`Stage.exists_build`).
* A stage that fails says that it was this stage that failed (`Stage.run_blames`).  The proofs follow
  the way in which stages are put together.
* The last stage converts rules, and what goes wrong then is that a rule is unsuited
  (`Workshop.convertAll_eq_error`).
-/

namespace NormalGrammar

open Sequence

variable {g : Grammar} {start : Symbol} {nonterminals terminals : List Symbol} {rule : Rule}
  {rules : List Rule} {e : NormalizationError}

theorem exists_eq_ok_of_isSome {ε α : Type} {r : Except ε α} (h : r.toOption.isSome = true) :
    ∃ a, r = .ok a := by
  cases r with
  | ok a => exact ⟨a, rfl⟩
  | error e => cases h

/-! ## Parts that fit together -/

/-- A stage refuses what it made if its parts have a defect. -/
theorem Stage.build_eq_error_iff {stage : Stage} :
    stage.build start nonterminals terminals rules = .error e ↔
      ∃ d, Grammar.ofParts start nonterminals terminals rules = .error d ∧ e = .refused stage d := by
  unfold build
  cases Grammar.ofParts start nonterminals terminals rules with
  | ok g =>
    constructor
    · nofun
    · rintro ⟨d, hd, -⟩
      cases hd
  | error d =>
    constructor
    · rintro ⟨⟩
      exact ⟨d, rfl, rfl⟩
    · rintro ⟨_, ⟨⟩, rfl⟩
      rfl

theorem Rule.Over.mono {declared more : List Symbol} (h : rule.Over declared)
    (hsub : declared ⊆ more) : rule.Over more where
  left_ne_nil := h.left_ne_nil
  right_ne_nil := h.right_ne_nil
  left_declared := fun x hx => hsub (h.left_declared x hx)
  right_declared := h.right_declared.imp_right fun hr x hx => hsub (hr x hx)

/-- Parts that fit together make up a grammar, however often their symbols are listed. -/
theorem Stage.exists_build (stage : Stage)
    (h : WellFormed start nonterminals terminals rules) :
    ∃ g, stage.build start nonterminals terminals rules = .ok g := by
  have hdistinct : WellFormed start (distinct nonterminals) (distinct terminals) rules :=
    { start_mem := mem_distinct.2 h.start_mem
      disjoint := by simpa using h.disjoint
      epsilon_not_mem_nonterminals := by simpa using h.epsilon_not_mem_nonterminals
      epsilon_not_mem_terminals := by simpa using h.epsilon_not_mem_terminals
      rules_over := fun rule hrule => (h.rules_over rule hrule).mono fun x hx => by simpa using hx }
  cases hparts : Grammar.ofParts start nonterminals terminals rules with
  | ok g => exact ⟨g, Stage.build_eq_ok_iff.2 hparts⟩
  | error d =>
    have hdefect := Grammar.ofParts_eq_error_iff.1 hparts
    rw [defect?_eq_none_iff.2 hdistinct] at hdefect
    cases hdefect

/-- Parts without their start symbol are refused for that, whatever else is wrong with them. -/
theorem Stage.build_of_start_not_mem (stage : Stage) (h : start ∉ nonterminals) :
    stage.build start nonterminals terminals rules =
      .error (.refused stage (.undeclaredStart start)) := by
  refine Stage.build_eq_error_iff.2 ⟨_, Grammar.ofParts_eq_error_iff.2 ?_, rfl⟩
  rw [defect?, if_pos (by simpa using h)]

/-- Other rules over the symbols of a grammar make up a grammar with them. -/
theorem Stage.exists_build_of_rules (stage : Stage)
    (h : ∀ rule ∈ rules, rule.Over (g.nonterminals ++ g.terminals)) :
    ∃ h, stage.build g.start g.nonterminals g.terminals rules = .ok h :=
  stage.exists_build { g.wellFormed with rules_over := h }

/-! ## Blame -/

/-- The stage that a failure is a failure of, if it is one of a stage. -/
def NormalizationError.stage? : NormalizationError → Option Stage
  | .notContextFree _ => none
  | .refused stage _ => some stage
  | .unsuited stage _ => some stage
  | .unsettled stage _ => some stage

/-- Whatever goes wrong in a computation, it is a failure of `stage`. -/
def Blames {α : Type} (stage : Stage) (t : Staged α) : Prop :=
  ∀ e, t.result = .error e → e.stage? = some stage

namespace Blames

variable {α β : Type} {stage : Stage} {t : Staged α} {f : α → Staged β}

theorem pure (a : α) : Blames stage (Pure.pure a) := nofun

theorem note (ns : List Event) : Blames stage (Traced.note ns) := nofun

/-- What goes wrong in two computations goes wrong in one of them. -/
theorem bind (ht : Blames stage t) (hf : ∀ a, Blames stage (f a)) : Blames stage (t >>= f) := by
  intro e he
  rcases Traced.result_bind_eq_error_iff.1 he with he | ⟨a, -, he⟩
  · exact ht e he
  · exact hf a e he

theorem unsettled (limit : Nat) :
    Blames stage (Traced.fail (.unsettled stage limit) : Staged α) := by
  rintro e ⟨⟩
  rfl

theorem headOf (rule : Rule) : Blames stage (liftM (stage.headOf rule)) := by
  intro e he
  rw [Traced.result_monadLift] at he
  unfold Stage.headOf at he
  split at he <;> cases he
  rfl

theorem build (start : Symbol) (nonterminals terminals : List Symbol) (rules : List Rule) :
    Blames stage (liftM (stage.build start nonterminals terminals rules)) := by
  intro e he
  obtain ⟨d, -, rfl⟩ := Stage.build_eq_error_iff.1 he
  rfl

end Blames

/-! ## Converting rules -/

namespace Workshop

variable {w : Workshop}

/-- The rules are blamed for what goes wrong. -/
theorem convertAll_eq_error (he : (w.convertAll g rules).result = .error e) :
    ∃ rule ∈ rules, e = .unsuited .normalForm rule := by
  induction rules generalizing w with
  | nil => cases he
  | cons rule rest ih =>
    rw [List.exists_mem_cons_iff]
    obtain he | ⟨⟨right, after⟩, -, he⟩ := Traced.result_bind_eq_error_iff.1 he
    · left
      rcases convert_cases w g rule with ⟨-, hc⟩ | ⟨x, -, ⟨-, hc⟩ | ⟨-, -, -, _, _, _, _, -, -, hc⟩⟩
      · cases he.symm.trans hc
        rfl
      · cases he.symm.trans hc
      · cases he.symm.trans hc
    · obtain hnote | ⟨_, -, he⟩ := Traced.result_bind_eq_error_iff.1 he
      · cases hnote
      · obtain he | ⟨_, -, he⟩ := Traced.result_bind_eq_error_iff.1 he
        · exact .inr (ih he)
        · cases he

end Workshop

/-! ## The five stages -/

theorem EpsilonFree.State.next_blames (rules : List Rule) (eliminated : List Symbol) :
    Blames .epsilonRules (next rules eliminated) := by
  unfold next
  split
  · exact .pure _
  · exact .bind (.headOf _) fun _ => .bind (.note _) fun _ => .pure _

theorem EpsilonFree.State.run_blames (limit passes : Nat) (s : State) :
    Blames .epsilonRules (run limit passes s) := by
  induction passes generalizing s with
  | zero => exact .unsettled limit
  | succ passes ih =>
    refine .bind (.note _) fun _ => ?_
    split
    · refine .bind (next_blames _ _) fun o => ?_
      cases o with
      | none => exact .pure _
      | some t => exact ih t
    · exact ih _

theorem RenamingFree.run_blames (g : Grammar) (limit passes : Nat) (rules : List Rule) :
    Blames .renamings (run g limit passes rules) := by
  induction passes generalizing rules with
  | zero =>
    rw [run.eq_def]
    dsimp only
    split
    · exact .pure _
    · exact .unsettled limit
  | succ passes ih =>
    rw [run.eq_def]
    dsimp only
    split
    · exact .pure _
    · exact .bind (.headOf _) fun _ => .bind (.note _) fun _ => ih _

theorem Reachable.explore_blames (g : Grammar) (limit passes : Nat) (found visited : List Symbol) :
    Blames .reachability (liftM (explore g limit passes found visited)) := by
  fun_induction explore g limit passes found visited with
  | case1 => nofun
  | case2 => exact .unsettled limit
  | case3 => assumption

theorem Productive.explore_blames (g : Grammar) (limit passes : Nat) (known : List Symbol) :
    Blames .productivity (liftM (explore g limit passes known)) := by
  fun_induction explore g limit passes known with
  | case1 => exact .unsettled limit
  | case2 => nofun
  | case3 => assumption

theorem Workshop.convertAll_blames (g : Grammar) (w : Workshop) (rules : List Rule) :
    Blames .normalForm (convertAll g w rules) := by
  intro e he
  obtain ⟨rule, -, rfl⟩ := convertAll_eq_error he
  rfl

/-- **Every stage blames itself** when it fails. -/
theorem Stage.run_blames (limit : Nat) (g : Grammar) (stage : Stage) :
    Blames stage (stage.run limit g) := by
  cases stage with
  | epsilonRules =>
    refine .bind (.bind (EpsilonFree.State.next_blames _ _) fun o => ?_) fun _ => .build _ _ _ _
    cases o with
    | none => exact .pure _
    | some s => exact EpsilonFree.State.run_blames _ _ _
  | renamings => exact .bind (RenamingFree.run_blames _ _ _ _) fun _ => .build _ _ _ _
  | reachability =>
    exact .bind (Reachable.explore_blames _ _ _ _ _) fun _ => .bind (.note _) fun _ => .build _ _ _ _
  | productivity =>
    exact .bind (Productive.explore_blames _ _ _ _) fun _ => .bind (.note _) fun _ => .build _ _ _ _
  | normalForm => exact .bind (Workshop.convertAll_blames _ _ _) fun _ => .build _ _ _ _

end NormalGrammar
