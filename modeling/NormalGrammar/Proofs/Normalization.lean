import Mathlib
import NormalGrammar.Proofs.EpsilonFree
import NormalGrammar.Proofs.Failures
import NormalGrammar.Proofs.NormalForm
import NormalGrammar.Proofs.Productive
import NormalGrammar.Proofs.Reachable
import NormalGrammar.Proofs.RenamingFree

/-!
# All stages in a row

What holds of the grammars on the way to normal form, and what the last of them derives.

* `Normalization.Runs` says that stages made grammars one after the other; what `ofStages` returns is
  described with it (`ofStages_runs`).
* `Guarantees n h` is what holds of a grammar after `n` stages.  Each stage adds what it is there for
  and keeps the rest (`Guarantees.run`), so it holds all the way (`normalization_guarantees`).
* `normalize_derives`: the words of a grammar are kept, all but the empty one.
-/

namespace NormalGrammar

variable {g h last : Grammar} {limit : Nat} {stage : Stage} {stages : List Stage}
  {finished : List (Stage × Grammar)}

/-! ## Running stages -/

namespace Normalization

/-- `Runs limit g finished last` says that, from `g` on, the stages of `finished` made the grammars
beside them, each from the one before it, and that `last` is what there is in the end. -/
inductive Runs (limit : Nat) : Grammar → List (Stage × Grammar) → Grammar → Prop
  | nil (g : Grammar) : Runs limit g [] g
  | cons {g h last : Grammar} {stage : Stage} {finished : List (Stage × Grammar)} :
      (stage.run limit g).result = .ok h → Runs limit h finished last →
      Runs limit g ((stage, h) :: finished) last

@[simp]
theorem result_announced : (announced limit g stage).result = (stage.run limit g).result := by
  simp only [announced, Traced.result_bind, Traced.result_note, Except.bind, Traced.result_pure]
  cases (stage.run limit g).result <;> rfl

/-- Either all stages finish, or those before one that fails on the last grammar. -/
theorem ofStages_runs (limit : Nat) (g : Grammar) (stages : List Stage) :
    ∃ last, Runs limit g (ofStages limit g stages).finished last ∧
      ((ofStages limit g stages).result = .ok last ∧
          (ofStages limit g stages).finished.map Prod.fst = stages ∨
        ∃ stage after e, stages = (ofStages limit g stages).finished.map Prod.fst ++ stage :: after ∧
          (stage.run limit last).result = .error e ∧
          (ofStages limit g stages).result = .error e) := by
  induction stages generalizing g with
  | nil => exact ⟨g, .nil g, .inl ⟨rfl, rfl⟩⟩
  | cons stage rest ih =>
    rw [ofStages, result_announced]
    cases hrun : (stage.run limit g).result with
    | error e => exact ⟨g, .nil g, .inr ⟨stage, rest, e, rfl, hrun, rfl⟩⟩
    | ok h =>
      obtain ⟨last, hruns, hend⟩ := ih h
      refine ⟨last, .cons hrun hruns, ?_⟩
      rcases hend with ⟨hok, hall⟩ | ⟨failing, after, e, hall, herror, hresult⟩
      · exact .inl ⟨hok, congrArg (stage :: ·) hall⟩
      · exact .inr ⟨failing, after, e, congrArg (stage :: ·) hall, herror, hresult⟩

theorem Runs.last_eq (r : Runs limit g finished last) :
    last = (finished.map Prod.snd).getLast?.getD g := by
  induction r with
  | nil => rfl
  | cons _ _ ih =>
    rw [ih, List.map_cons, List.getLast?_cons]
    rfl

end Normalization

open Normalization

theorem normalization_eq (hcf : g.isContextFree = true) :
    g.normalization limit = ofStages limit g Stage.all := by
  have hnone : g.rules.find? (!g.rewritesNonterminal ·) = none := by
    simpa [Grammar.isContextFree] using hcf
  rw [Grammar.normalization, hnone]

/-! ## Guarantees -/

/-- The number of stages that run before a stage. -/
def Stage.place (stage : Stage) : Nat := all.idxOf stage

/-- What holds of a grammar after the first `n` stages. -/
structure Guarantees (n : Nat) (h : Grammar) : Prop where
  contextFree : h.isContextFree = true
  noEmptyRules : Stage.epsilonRules.place < n → h.NoEmptyRules
  noRenamings : Stage.renamings.place < n → h.NoRenamings
  allProductive : Stage.productivity.place < n → h.AllProductive
  allNormal : Stage.normalForm.place < n → h.AllNormal


open Grammar

theorem Guarantees.initial (hcf : g.isContextFree = true) : Guarantees 0 g :=
  ⟨hcf, nofun, nofun, nofun, nofun⟩

/-- **A stage adds its guarantee** to those of the stages before it. -/
theorem Guarantees.run (stage : Stage) (hg : Guarantees stage.place g)
    (hh : (stage.run limit g).result = .ok h) : Guarantees (stage.place + 1) h := by
  have hcf := hg.contextFree
  cases stage with
  | epsilonRules =>
    exact
      { contextFree := isContextFree_epsilonFree hcf hh
        noEmptyRules := fun _ => noEmptyRules_epsilonFree hcf hh
        noRenamings := fun hlt => absurd hlt (by decide)
        allProductive := fun hlt => absurd hlt (by decide)
        allNormal := fun hlt => absurd hlt (by decide) }
  | renamings =>
    exact
      { contextFree := isContextFree_renamingFree hcf hh
        noEmptyRules := fun _ => noEmptyRules_renamingFree hcf (hg.noEmptyRules (by decide)) hh
        noRenamings := fun _ => noRenamings_renamingFree hcf hh
        allProductive := fun hlt => absurd hlt (by decide)
        allNormal := fun hlt => absurd hlt (by decide) }
  | reachability =>
    obtain ⟨-, hn, -, hr⟩ := reachable_eq_ok hh
    have hrules : ∀ rule ∈ h.rules, rule ∈ g.rules := fun rule hrule => ((hr rule).1 hrule).1
    exact
      { contextFree := isContextFree_reachable hcf hh
        noEmptyRules := fun _ => (hg.noEmptyRules (by decide)).mono hrules
        noRenamings := fun _ =>
          (hg.noRenamings (by decide)).mono hrules fun x hx => ((hn x).1 hx).1
        allProductive := fun hlt => absurd hlt (by decide)
        allNormal := fun hlt => absurd hlt (by decide) }
  | productivity =>
    have hε := hg.noEmptyRules (by decide)
    obtain ⟨-, hn, -, hr⟩ := productive_eq_ok hcf hε hh
    have hrules : ∀ rule ∈ h.rules, rule ∈ g.rules := fun rule hrule => ((hr rule).1 hrule).1
    exact
      { contextFree := isContextFree_productive hcf hε hh
        noEmptyRules := fun _ => hε.mono hrules
        noRenamings := fun _ =>
          (hg.noRenamings (by decide)).mono hrules fun x hx => ((hn x).1 hx).1
        allProductive := fun _ => allProductive_productive hcf hε hh
        allNormal := fun hlt => absurd hlt (by decide) }
  | normalForm =>
    obtain ⟨w, hnf⟩ := normalForm_eq_ok hcf hh
    have hnormal := hnf.allNormal hcf
    exact
      { contextFree := hnormal.isContextFree
        noEmptyRules := fun _ => hnormal.noEmptyRules
        noRenamings := fun _ => hnormal.noRenamings
        allProductive := fun _ => hnf.allProductive (hg.allProductive (by decide))
        allNormal := fun _ => hnormal }

/-- Along a run of the stages from the one at place `n` on, every grammar has the guarantees of the
stages that made it. -/
theorem Normalization.Runs.guarantees {n : Nat} (r : Runs limit g finished last)
    (hg : Guarantees n g) (hplace : ∀ i, ∀ p ∈ finished[i]?, p.1.place = n + i) :
    ∀ p ∈ finished, Guarantees (p.1.place + 1) p.2 := by
  induction r generalizing n with
  | nil => exact nofun
  | @cons g h last stage finished hrun _ ih =>
    have hstage : stage.place = n := hplace 0 (stage, h) rfl
    have hh : Guarantees (stage.place + 1) h := Guarantees.run stage (hstage ▸ hg) hrun
    refine List.forall_mem_cons.2 ⟨hh, ih hh fun i p hp => ?_⟩
    rw [hstage, hplace (i + 1) p (by simpa using hp)]
    omega

theorem Stage.place_of_getElem? {i : Nat} (h : Stage.all[i]? = some stage) : stage.place = i := by
  obtain ⟨hi, rfl⟩ := List.getElem?_eq_some_iff.1 h
  match i, hi with
  | 0, _ | 1, _ | 2, _ | 3, _ | 4, _ => rfl

theorem Normalization.Runs.guarantees_of_finished (r : Runs limit g finished last)
    (hcf : g.isContextFree = true) (hfinished : finished.map Prod.fst <+: Stage.all) :
    ∀ p ∈ finished, Guarantees (p.1.place + 1) p.2 := by
  refine r.guarantees (.initial hcf) fun i p hp => ?_
  obtain ⟨more, hmore⟩ := hfinished
  have hi : (finished.map Prod.fst)[i]? = some p.1 := by
    rw [List.getElem?_map, hp]
    rfl
  obtain ⟨hlt, -⟩ := List.getElem?_eq_some_iff.1 hi
  rw [Nat.zero_add]
  refine Stage.place_of_getElem? ?_
  rw [← hmore, List.getElem?_append_left hlt, hi]

/-- The grammar of the words `aⁿbⁿ`, written with an empty right side. -/
def balanced : Grammar where
  start := ⟨"S"⟩
  nonterminals := [⟨"S"⟩]
  terminals := [⟨"a"⟩, ⟨"b"⟩]
  rules := [.ofHead ⟨"S"⟩ [⟨"a"⟩, ⟨"S"⟩, ⟨"b"⟩], .ofHead ⟨"S"⟩ [.epsilon]]
  nodup_nonterminals := by decide
  nodup_terminals := by decide
  wellFormed := defect?_eq_none_iff.1 (by decide)

/-- **Guarantees are kept all the way**: whatever a stage made has the guarantees of this stage and
of all before it.  If the grammar is brought into normal form, all stages finished and the last of
them made it; otherwise those finished that run before the stage that is to blame. -/
theorem normalization_guarantees (hcf : g.isContextFree = true) (limit : Nat) :
    (∀ stage h, (stage, h) ∈ (g.normalization limit).finished → Guarantees (stage.place + 1) h) ∧
      (∀ n, g.normalize limit = .ok n →
        (g.normalization limit).finished.map Prod.fst = Stage.all ∧
          (g.normalization limit).finished.getLast?.map Prod.snd = some n) ∧
      ∀ e, g.normalize limit = .error e →
        ∃ before stage after, Stage.all = before ++ stage :: after ∧
          (g.normalization limit).finished.map Prod.fst = before ∧ e.stage? = some stage ∧
          (stage.run limit
            (((g.normalization limit).finished.getLast?.map Prod.snd).getD g)).result =
              .error e := by
  rw [Grammar.normalize, normalization_eq hcf]
  obtain ⟨last, hruns, hend⟩ := ofStages_runs limit g Stage.all
  have hlast := hruns.last_eq
  rw [List.getLast?_map] at hlast
  rcases hend with ⟨hok, hall⟩ | ⟨stage, after, e, hall, herror, hresult⟩
  · refine ⟨fun stage h hmem => ?_, fun n hn => ⟨hall, ?_⟩, fun e he => ?_⟩
    · exact hruns.guarantees_of_finished hcf ⟨[], (List.append_nil _).trans hall⟩ (stage, h) hmem
    · obtain rfl := Except.ok.inj (hok.symm.trans hn)
      cases hl : (ofStages limit g Stage.all).finished.getLast? with
      | none =>
        rw [List.getLast?_eq_none_iff.1 hl] at hall
        cases hall
      | some p =>
        rw [hl] at hlast
        exact congrArg some hlast.symm
    · cases hok.symm.trans he
  · refine ⟨fun stage h hmem => ?_, fun n hn => ?_, fun e' he => ?_⟩
    · exact hruns.guarantees_of_finished hcf ⟨_, hall.symm⟩ (stage, h) hmem
    · cases hresult.symm.trans hn
    · obtain rfl := Except.error.inj (hresult.symm.trans he)
      rw [← hlast]
      exact ⟨_, stage, after, hall, rfl, Stage.run_blames limit last stage e herror, herror⟩

/-- With ten passes `balanced` goes through all stages, with one it stays in the first. -/
theorem balanced_guarantees : balanced.isContextFree = true ∧
    (balanced.normalization 10).finished.map Prod.fst = Stage.all ∧
    (∀ stage h, (stage, h) ∈ (balanced.normalization 10).finished →
      Guarantees (stage.place + 1) h) ∧
    balanced.normalize 1 = .error (.unsettled .epsilonRules 1) ∧
    ∃ before after, Stage.all = before ++ .epsilonRules :: after ∧
      (balanced.normalization 1).finished.map Prod.fst = before := by
  have hcf : balanced.isContextFree = true := by decide
  have herror : balanced.normalize 1 = .error (.unsettled .epsilonRules 1) := by decide_cbv
  obtain ⟨hall, -, -⟩ := normalization_guarantees hcf 10
  obtain ⟨-, -, hfailed⟩ := normalization_guarantees hcf 1
  obtain ⟨before, stage, after, hsplit, hfinished, hblamed, -⟩ := hfailed _ herror
  obtain rfl := Option.some.inj hblamed
  exact ⟨hcf, by decide_cbv, hall, herror, before, after, hsplit, hfinished⟩

/-! ## Words -/

/-- The grammars on the way from `g` to its normal form `n`, stage by stage. -/
structure Steps (limit : Nat) (g e u r p n : Grammar) : Prop where
  epsilonFree : (g.epsilonFree limit).result = .ok e
  renamingFree : (e.renamingFree limit).result = .ok u
  reachable : (u.reachable limit).result = .ok r
  productive : (r.productive limit).result = .ok p
  normalForm : p.normalForm.result = .ok n

variable {e u r p n : Grammar} {x : Symbol} {w : List Symbol}

/-- A grammar with a normal form went through all stages. -/
theorem normalize_eq_ok (hcf : g.isContextFree = true) (hn : g.normalize limit = .ok n) :
    ∃ e u r p, Steps limit g e u r p n ∧ (g.normalization limit).finished =
      [(.epsilonRules, e), (.renamings, u), (.reachability, r), (.productivity, p),
        (.normalForm, n)] := by
  rw [Grammar.normalize, normalization_eq hcf] at hn
  rw [normalization_eq hcf]
  obtain ⟨last, hruns, ⟨hok, hall⟩ | ⟨_, _, _, -, -, hresult⟩⟩ := ofStages_runs limit g Stage.all
  · obtain rfl := Except.ok.inj (hok.symm.trans hn)
    generalize (ofStages limit g Stage.all).finished = finished at hruns hall
    match finished, hall, hruns with
    | [(_, e), (_, u), (_, r), (_, p), (_, n)], rfl,
      .cons he (.cons hu (.cons hr (.cons hp (.cons hn (.nil _))))) =>
      exact ⟨e, u, r, p, ⟨he, hu, hr, hp, hn⟩, rfl⟩
  · cases hresult.symm.trans hn

theorem Steps.guarantees (s : Steps limit g e u r p n) (hcf : g.isContextFree = true) :
    Guarantees 1 e ∧ Guarantees 2 u ∧ Guarantees 3 r ∧ Guarantees 4 p ∧ Guarantees 5 n := by
  have he : Guarantees 1 e := (Guarantees.initial hcf).run .epsilonRules s.epsilonFree
  have hu : Guarantees 2 u := he.run .renamings s.renamingFree
  have hr : Guarantees 3 r := hu.run .reachability s.reachable
  have hp : Guarantees 4 p := hr.run .productivity s.productive
  have hn : (Stage.normalForm.run limit p).result = .ok n := s.normalForm
  exact ⟨he, hu, hr, hp, hp.run .normalForm hn⟩

/-- The last two stages, with what they rely on. -/
theorem Steps.parts (s : Steps limit g e u r p n) (hcf : g.isContextFree = true) :
    r.isContextFree = true ∧ r.NoEmptyRules ∧ p.isContextFree = true ∧
      ∃ workshop, IsNormalFormOf workshop p n := by
  obtain ⟨-, -, hr, hp, -⟩ := s.guarantees hcf
  exact ⟨hr.contextFree, hr.noEmptyRules (by decide), hp.contextFree,
    normalForm_eq_ok hp.contextFree s.normalForm⟩

theorem Steps.start_eq (s : Steps limit g e u r p n) (hcf : g.isContextFree = true) :
    n.start = p.start ∧ p.start = g.start := by
  obtain ⟨hr, hε, -, workshop, hnf⟩ := s.parts hcf
  refine ⟨hnf.start_eq, ?_⟩
  calc p.start
    _ = r.start := (productive_eq_ok hr hε s.productive).1
    _ = u.start := (reachable_eq_ok s.reachable).1
    _ = e.start := (renamingFree_eq_ok s.renamingFree).1
    _ = g.start := (epsilonFree_eq_ok s.epsilonFree).1

/-- What is left after the third stage derives the words that it derived at first, the empty one
aside. -/
theorem Steps.derives_reachable_iff (s : Steps limit g e u r p n) (hcf : g.isContextFree = true)
    (hx : x ∈ r.nonterminals) : r.Derives [x] w ↔ g.Derives [x] w ∧ w ≠ [] := by
  obtain ⟨he, -⟩ := s.guarantees hcf
  obtain ⟨-, hne, -, -⟩ := epsilonFree_eq_ok s.epsilonFree
  obtain ⟨-, hnu, -, -⟩ := renamingFree_eq_ok s.renamingFree
  obtain ⟨-, hnr, -, -⟩ := reachable_eq_ok s.reachable
  obtain ⟨hxu, hreach⟩ := (hnr x).1 hx
  have hxg : x ∈ g.nonterminals := by rwa [hnu, hne] at hxu
  calc r.Derives [x] w
    _ ↔ u.Derives [x] w := Grammar.derives_reachable_iff s.reachable fun y hy _ =>
        List.mem_singleton.1 hy ▸ hreach
    _ ↔ e.Derives [x] w := derives_renamingFree_iff he.contextFree s.renamingFree
    _ ↔ g.Derives [x] w ∧ w ≠ [] := derives_epsilonFree_iff hcf s.epsilonFree hxg

theorem Steps.derives_iff (s : Steps limit g e u r p n) (hcf : g.isContextFree = true)
    (hx : x ∈ p.nonterminals) : n.Derives [x] w ↔ g.Derives [x] w ∧ w ≠ [] := by
  obtain ⟨hr, hε, -, workshop, hnf⟩ := s.parts hcf
  obtain ⟨-, hnp, -, -⟩ := productive_eq_ok hr hε s.productive
  calc n.Derives [x] w
    _ ↔ p.Derives [x] w := hnf.derives_iff fun y hy _ =>
        List.mem_append_left _ (List.mem_singleton.1 hy ▸ hx)
    _ ↔ r.Derives [x] w := derives_productive_iff hr hε s.productive
    _ ↔ g.Derives [x] w ∧ w ≠ [] := s.derives_reachable_iff hcf ((hnp x).1 hx).1

/-- **The words of a grammar are kept**, all but the empty one: those of the start symbol, and those
of every nonterminal that is left after the fourth stage. -/
theorem normalize_derives (hcf : g.isContextFree = true) (hn : g.normalize limit = .ok n) :
    (∀ w, n.Generates w ↔ g.Generates w ∧ w ≠ []) ∧
      ∃ p, (g.normalization limit).finished.lookup .productivity = some p ∧
        ∀ x ∈ p.nonterminals, ∀ w, n.Derives [x] w ↔ g.Derives [x] w ∧ w ≠ [] := by
  obtain ⟨e, u, r, p, s, hfinished⟩ := normalize_eq_ok hcf hn
  refine ⟨fun w => ?_, p, ?_, fun x hx w => s.derives_iff hcf hx⟩
  · obtain ⟨hnp, hpg⟩ := s.start_eq hcf
    rw [Generates, Generates, hnp, ← hpg]
    exact s.derives_iff hcf p.wellFormed.start_mem
  · rw [hfinished]
    rfl

/-- In normal form, `balanced` generates the words it did, without the empty one. -/
theorem balanced_normalize_derives : balanced.isContextFree = true ∧
    ∃ n, balanced.normalize 10 = .ok n ∧ ∀ w, n.Generates w ↔ balanced.Generates w ∧ w ≠ [] := by
  have hcf : balanced.isContextFree = true := by decide
  obtain ⟨n, hn⟩ : ∃ n, balanced.normalize 10 = .ok n := exists_eq_ok_of_isSome (by decide_cbv)
  exact ⟨hcf, n, hn, (normalize_derives hcf hn).1⟩

end NormalGrammar
