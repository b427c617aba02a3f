import Mathlib
import NormalGrammar.Proofs.Failures

/-!
# What the limit does

A stage counts its passes and gives up when there are more of them than the limit allows.  This is
all that the limit does.

* `CutOff stage limit t t'` compares a computation `t` under a limit with the same computation `t'`
  under a larger one: `t` is `t'`, or `t` gave up on the way and took the first of the notes that
  `t'` takes.  Loops are compared pass by pass, so each loop is cut off by its own counter.
* `Stage.run_cutOff` says this of every stage, `Normalization.ofStages_cutOff` of stages in a row.
* `limit_only_cuts_off` puts it in terms of outcomes.
-/

namespace NormalGrammar

variable {α β : Type} {stage : Stage} {limit limit' passes passes' : Nat} {g : Grammar}

namespace Traced

variable {ν ε α β : Type} {t : Traced ν ε α} {f : α → Traced ν ε β}

theorem bind_of_ok {a : α} (h : t.result = .ok a) :
    t >>= f = ⟨t.notes ++ (f a).notes, (f a).result⟩ := by
  show Traced.bind t f = _
  simp only [Traced.bind, h]

theorem bind_of_error {e : ε} (h : t.result = .error e) : t >>= f = ⟨t.notes, .error e⟩ := by
  show Traced.bind t f = _
  simp only [Traced.bind, h]

/-- Notes are not taken back. -/
theorem notes_prefix_bind (t : Traced ν ε α) (f : α → Traced ν ε β) :
    t.notes <+: (t >>= f).notes := by
  cases h : t.result with
  | ok a => simp [bind_of_ok h]
  | error e => simp [bind_of_error h]

end Traced

/-! ## Giving up -/

/-- A computation does not give up for want of passes. -/
def Settles (t : Staged α) : Prop := ∀ stage n, t.result ≠ .error (.unsettled stage n)

namespace Settles

variable {t : Staged α} {f : α → Staged β}

theorem of_ok {a : α} (h : t.result = .ok a) : Settles t := by
  intro stage n he
  simp [h] at he

theorem bind (ht : Settles t) (hf : ∀ a, t.result = .ok a → Settles (f a)) :
    Settles (t >>= f) := by
  intro stage n he
  rcases Traced.result_bind_eq_error_iff.1 he with he | ⟨a, ha, he⟩
  · exact ht stage n he
  · exact hf a ha stage n he

theorem headOf (stage : Stage) (rule : Rule) : Settles (liftM (stage.headOf rule)) := by
  intro s n he
  rw [Traced.result_monadLift] at he
  unfold Stage.headOf at he
  split at he <;> simp at he

theorem build (stage : Stage) (start : Symbol) (nonterminals terminals : List Symbol)
    (rules : List Rule) : Settles (liftM (stage.build start nonterminals terminals rules)) := by
  intro s n he
  obtain ⟨d, -, he⟩ := Stage.build_eq_error_iff.1 he
  simp at he

end Settles

/-- `t` is `t'` and does not give up, or `t` gave up in `stage` when it had taken the first of the
notes of `t'`. -/
inductive CutOff (stage : Stage) (limit : Nat) (t t' : Staged α) : Prop
  | same : Settles t → t = t' → CutOff stage limit t t'
  | short : t.result = .error (.unsettled stage limit) → t.notes <+: t'.notes →
      CutOff stage limit t t'

namespace CutOff

variable {t t' : Staged α} {f f' : α → Staged β}

theorem refl (ht : Settles t) : CutOff stage limit t t := .same ht rfl

theorem fail (t' : Staged α) :
    CutOff stage limit (Traced.fail (.unsettled stage limit)) t' :=
  .short rfl (List.nil_prefix ..)

/-- Two computations in a row are cut off in the first or in the second. -/
theorem bind (ht : CutOff stage limit t t') (hf : ∀ a, CutOff stage limit (f a) (f' a)) :
    CutOff stage limit (t >>= f) (t' >>= f') := by
  cases ht with
  | short he hnotes =>
    -- the second does not start, and with a larger limit only notes can be added
    refine .short ?_ ?_
    · rw [Traced.bind_of_error he]
    · rw [Traced.bind_of_error he]
      exact hnotes.trans (Traced.notes_prefix_bind t' f')
  | same ht heq =>
    subst heq
    cases hr : t.result with
    | error e =>
      refine .same (ht.bind fun a ha => ?_) ?_
      · rw [hr] at ha
        simp at ha
      · rw [Traced.bind_of_error hr, Traced.bind_of_error hr]
    | ok a =>
      rcases hf a with ⟨hsettles, heq⟩ | ⟨he, hnotes⟩
      · refine .same (ht.bind fun b hb => ?_) ?_
        · rw [hr, Except.ok.injEq] at hb
          exact hb ▸ hsettles
        · rw [Traced.bind_of_ok hr, Traced.bind_of_ok hr, heq]
      · refine .short ?_ ?_
        · rw [Traced.bind_of_ok hr]
          exact he
        · rw [Traced.bind_of_ok hr, Traced.bind_of_ok hr]
          simpa using hnotes

theorem bind_right (ht : Settles t) (hf : ∀ a, CutOff stage limit (f a) (f' a)) :
    CutOff stage limit (t >>= f) (t >>= f') :=
  (CutOff.refl ht).bind hf

theorem bind_left (ht : CutOff stage limit t t') (hf : ∀ a, Settles (f a)) :
    CutOff stage limit (t >>= f) (t' >>= f) :=
  ht.bind fun a => .refl (hf a)

end CutOff

/-! ## The loops of the stages -/

namespace EpsilonFree

theorem State.settles_next (rules : List Rule) (eliminated : List Symbol) :
    Settles (State.next rules eliminated) := by
  unfold State.next
  split
  · exact .of_ok rfl
  · exact (Settles.headOf _ _).bind fun _ _ => (Settles.of_ok rfl).bind fun _ _ => .of_ok rfl

/-- One counter is shared by the passes for one symbol and the steps to the next symbol. -/
theorem State.run_cutOff (hpasses : passes ≤ passes') (s : State) :
    CutOff .epsilonRules limit (s.run limit passes) (s.run limit' passes') := by
  induction passes generalizing passes' s with
  | zero => exact .fail _
  | succ passes ih =>
    obtain ⟨more, rfl⟩ : ∃ more, passes' = more + 1 := ⟨passes' - 1, by omega⟩
    have hle : passes ≤ more := by omega
    show CutOff _ _ (Traced.note _ >>= fun _ => _) (Traced.note _ >>= fun _ => _)
    refine .bind_right (.of_ok rfl) fun _ => ?_
    by_cases hadd : s.additions = []
    · simp only [if_pos hadd]
      refine .bind_right (settles_next _ _) fun o => ?_
      cases o with
      | none => exact .refl (.of_ok rfl)
      | some t => exact ih hle t
    · simp only [if_neg hadd]
      exact ih hle _

theorem rules_cutOff (hle : limit ≤ limit') (given : List Rule) :
    CutOff .epsilonRules limit (EpsilonFree.rules limit given) (EpsilonFree.rules limit' given) := by
  refine .bind_right (State.settles_next _ _) fun o => ?_
  cases o with
  | none => exact .refl (.of_ok rfl)
  | some s => exact s.run_cutOff hle

end EpsilonFree

theorem RenamingFree.run_cutOff (hpasses : passes ≤ passes') (rules : List Rule) :
    CutOff .renamings limit (run g limit passes rules) (run g limit' passes' rules) := by
  induction passes generalizing passes' rules with
  | zero =>
    rw [run.eq_def, run.eq_def]
    dsimp only
    split
    · exact .refl (.of_ok rfl)
    · exact .fail _
  | succ passes ih =>
    obtain ⟨more, rfl⟩ : ∃ more, passes' = more + 1 := ⟨passes' - 1, by omega⟩
    rw [run.eq_def, run.eq_def]
    dsimp only
    split
    · exact .refl (.of_ok rfl)
    · refine .bind_right (.headOf _ _) fun _ => .bind_right (.of_ok rfl) fun _ => ?_
      exact ih (by omega) _

theorem Reachable.explore_cutOff (hpasses : passes ≤ passes') (found visited : List Symbol) :
    CutOff .reachability limit (liftM (explore g limit passes found visited))
      (liftM (explore g limit' passes' found visited)) := by
  induction passes generalizing passes' found visited with
  | zero =>
    rw [explore.eq_def, explore.eq_def]
    by_cases hall : Sequence.isRearrangement found visited = true
    · simp only [if_pos hall]
      exact .refl (.of_ok rfl)
    · simp only [if_neg hall]
      exact .fail _
  | succ passes ih =>
    obtain ⟨more, rfl⟩ : ∃ more, passes' = more + 1 := ⟨passes' - 1, by omega⟩
    rw [explore.eq_def, explore.eq_def]
    by_cases hall : Sequence.isRearrangement found visited = true
    · simp only [if_pos hall]
      exact .refl (.of_ok rfl)
    · simp only [if_neg hall]
      exact ih (by omega) _ _

theorem Productive.explore_cutOff (hpasses : passes ≤ passes') (known : List Symbol) :
    CutOff .productivity limit (liftM (explore g limit passes known))
      (liftM (explore g limit' passes' known)) := by
  induction passes generalizing passes' known with
  | zero => exact .fail _
  | succ passes ih =>
    obtain ⟨more, rfl⟩ : ∃ more, passes' = more + 1 := ⟨passes' - 1, by omega⟩
    simp only [explore]
    split
    · exact .refl (.of_ok rfl)
    · exact ih (by omega) _

namespace Workshop

/-- Converting rules counts nothing. -/
theorem settles_convertAll (w : Workshop) (rules : List Rule) :
    Settles (convertAll g w rules) := by
  intro stage n he
  obtain ⟨rule, -, hunsuited⟩ := convertAll_eq_error he
  cases hunsuited

end Workshop

/-! ## The stages -/

theorem Grammar.settles_normalForm (g : Grammar) : Settles g.normalForm :=
  (Workshop.settles_convertAll _ _).bind fun _ _ => .build _ _ _ _ _

/-- **A limit only cuts a stage off.** -/
theorem Stage.run_cutOff (hle : limit ≤ limit') (g : Grammar) (stage : Stage) :
    CutOff stage limit (stage.run limit g) (stage.run limit' g) := by
  cases stage with
  | epsilonRules => exact (EpsilonFree.rules_cutOff hle _).bind_left fun _ => .build _ _ _ _ _
  | renamings => exact (RenamingFree.run_cutOff hle _).bind_left fun _ => .build _ _ _ _ _
  | reachability =>
    exact (Reachable.explore_cutOff hle _ _).bind_left fun _ =>
      (Settles.of_ok rfl).bind fun _ _ => .build _ _ _ _ _
  | productivity =>
    exact (Productive.explore_cutOff hle _).bind_left fun _ =>
      (Settles.of_ok rfl).bind fun _ _ => .build _ _ _ _ _
  | normalForm => exact .refl g.settles_normalForm

/-- A stage that gives up says so of itself and names the limit, and it is not the last one. -/
theorem Stage.run_eq_unsettled {s : Stage} {n : Nat}
    (h : (stage.run limit g).result = .error (.unsettled s n)) :
    s = stage ∧ n = limit ∧ stage ≠ .normalForm := by
  have hlast : stage ≠ .normalForm := by
    rintro rfl
    exact g.settles_normalForm s n h
  cases stage.run_cutOff (Nat.le_refl limit) g with
  | same hsettles _ => exact absurd h (hsettles s n)
  | short he _ =>
    rw [h] at he
    simp only [Except.error.injEq, NormalizationError.unsettled.injEq] at he
    exact ⟨he.1, he.2, hlast⟩

/-! ## Stages in a row -/

namespace Normalization

/-- `n` is `n'` and does not give up, or `n` gave up, and what it had finished by then `n'` finishes
too. -/
inductive CutOff (limit : Nat) (n n' : Normalization) : Prop
  | same : (∀ stage m, n.result ≠ .error (.unsettled stage m)) → n = n' → CutOff limit n n'
  | short {stage : Stage} : stage ≠ .normalForm → n.result = .error (.unsettled stage limit) →
      n.finished <+: n'.finished → n.notes <+: n'.notes → CutOff limit n n'

theorem announced_cutOff (hle : limit ≤ limit') (g : Grammar) (stage : Stage) :
    NormalGrammar.CutOff stage limit (announced limit g stage) (announced limit' g stage) := by
  refine .bind_right (.of_ok rfl) fun _ => (stage.run_cutOff hle g).bind_left fun _ => ?_
  exact (Settles.of_ok rfl).bind fun _ _ => .of_ok rfl

theorem notes_prefix_ofStages (limit : Nat) (g : Grammar) (stage : Stage) (rest : List Stage) :
    (announced limit g stage).notes <+: (ofStages limit g (stage :: rest)).notes := by
  rw [ofStages]
  split <;> simp

/-- **A limit only cuts stages in a row off.** -/
theorem ofStages_cutOff (hle : limit ≤ limit') (g : Grammar) (stages : List Stage) :
    CutOff limit (ofStages limit g stages) (ofStages limit' g stages) := by
  induction stages generalizing g with
  | nil => exact .same (by simp [ofStages]) rfl
  | cons stage rest ih =>
    cases announced_cutOff hle g stage with
    | short he hnotes =>
      -- the first stage is cut off, so nothing is finished
      have hlast : stage ≠ .normalForm := by
        rintro rfl
        exact (g.settles_normalForm.bind fun _ _ => .of_ok rfl) _ _ he
      have hcut : ofStages limit g (stage :: rest) =
          ⟨[], (announced limit g stage).notes, .error (.unsettled stage limit)⟩ := by
        simp only [ofStages, he]
      rw [hcut]
      exact .short hlast rfl (List.nil_prefix ..)
        (hnotes.trans (notes_prefix_ofStages limit' g stage rest))
    | same hsettles heq =>
      simp only [ofStages, ← heq]
      cases hr : (announced limit g stage).result with
      | error e =>
        refine .same (fun s m he => hsettles s m ?_) rfl
        rw [hr, ← he]
      | ok h =>
        cases ih h with
        | same hlater heq => exact .same hlater (by simp only [heq])
        | short hlast he hfinished hnotes =>
          exact .short hlast he (by simpa using hfinished) (by simpa using hnotes)

end Normalization

/-- Whatever the limit, the same grammars are turned away. -/
theorem Grammar.normalization_cutOff (hle : limit ≤ limit') (g : Grammar) :
    Normalization.CutOff limit (g.normalization limit) (g.normalization limit') := by
  unfold Grammar.normalization
  split
  · exact .same (by simp) rfl
  · exact Normalization.ofStages_cutOff hle g Stage.all

/-! ## Outcomes -/

/-- **The limit only cuts off.**  Whatever comes of a stage under a limit comes of it under every
larger one, unless it is that the stage gave up; a stage that gives up names the limit, and is not
the last one.  The same holds of all stages in a row, where what was finished before a stage gave up
is finished under a larger limit too. -/
theorem limit_only_cuts_off (hle : limit ≤ limit') (g : Grammar) :
    (∀ stage : Stage,
      ((∀ s n, (stage.run limit g).result ≠ .error (.unsettled s n)) →
          stage.run limit' g = stage.run limit g) ∧
        ∀ s n, (stage.run limit g).result = .error (.unsettled s n) →
          s = stage ∧ n = limit ∧ stage ≠ .normalForm) ∧
      ((∀ s n, g.normalize limit ≠ .error (.unsettled s n)) →
          g.normalization limit' = g.normalization limit) ∧
      ∀ s n, g.normalize limit = .error (.unsettled s n) →
        n = limit ∧ s ≠ .normalForm ∧
          (g.normalization limit).finished <+: (g.normalization limit').finished := by
  refine ⟨fun stage => ⟨fun hsettles => ?_, fun s n => Stage.run_eq_unsettled⟩, ?_, ?_⟩
  · cases stage.run_cutOff hle g with
    | same _ heq => exact heq.symm
    | short he _ => exact absurd he (hsettles stage limit)
  · intro hsettles
    cases g.normalization_cutOff hle with
    | same _ heq => exact heq.symm
    | short _ he _ _ => exact absurd he (hsettles _ limit)
  · intro s n h
    cases g.normalization_cutOff hle with
    | same hsettles _ => exact absurd h (hsettles s n)
    | short hlast he hfinished _ =>
      have hsame := h.symm.trans he
      simp only [Except.error.injEq, NormalizationError.unsettled.injEq] at hsame
      exact ⟨hsame.2, hsame.1 ▸ hlast, hfinished⟩

/-- Symbols in a chain, each reachable only from the one before it. -/
def chain : Grammar where
  start := ⟨"S"⟩
  nonterminals := [⟨"S"⟩, ⟨"T"⟩, ⟨"U"⟩]
  terminals := [⟨"c"⟩, ⟨"d"⟩]
  rules := [.ofHead ⟨"S"⟩ [⟨"c"⟩, ⟨"T"⟩], .ofHead ⟨"T"⟩ [⟨"c"⟩, ⟨"U"⟩], .ofHead ⟨"U"⟩ [⟨"d"⟩]]
  nodup_nonterminals := by decide
  nodup_terminals := by decide
  wellFormed := defect?_eq_none_iff.1 (by decide)

/-- With two passes the search for what is reachable in `chain` is cut off, after two stages that
finish as they do with ten; with four passes all comes out as with ten. -/
theorem chain_cut_off : 2 ≤ 10 ∧ 4 ≤ 10 ∧
    chain.normalize 2 = .error (.unsettled .reachability 2) ∧
    (chain.normalization 2).finished.map Prod.fst = [.epsilonRules, .renamings] ∧
    (chain.normalization 2).finished <+: (chain.normalization 10).finished ∧
    (∃ n, chain.normalize 4 = .ok n) ∧ chain.normalization 10 = chain.normalization 4 := by
  have hcut : chain.normalize 2 = .error (.unsettled .reachability 2) := by decide_cbv
  obtain ⟨n, hn⟩ : ∃ n, chain.normalize 4 = .ok n := exists_eq_ok_of_isSome (by decide_cbv)
  obtain ⟨-, -, hprefix⟩ := limit_only_cuts_off (show 2 ≤ 10 by decide) chain
  obtain ⟨-, hsame, -⟩ := limit_only_cuts_off (show 4 ≤ 10 by decide) chain
  obtain ⟨-, -, hfinished⟩ := hprefix _ _ hcut
  exact ⟨by decide, by decide, hcut, by decide_cbv, hfinished, ⟨n, hn⟩, hsame (by simp [hn])⟩

end NormalGrammar
