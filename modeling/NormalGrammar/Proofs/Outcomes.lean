import NormalGrammar.Proofs.Acceptance
import NormalGrammar.Proofs.Classes
import NormalGrammar.Proofs.Normalization
import NormalGrammar.Proofs.Settling

/-!
# What can come of a grammar

Of all the ways in which a stage could fail, a grammar meets few on its way to normal form.

* The first three stages fail only by taking too many passes (`OnlyUnsettled`), since what they make
  fits together.  The fourth also fails if the start symbol derives no word
  (`productive_eq_error`), and the fifth never does (`exists_normalForm`).
* The stages keep the start symbol and its words (`Normalization.Runs.keeps`), so what the fourth
  stage finds out about the start symbol holds of the grammar at the beginning.
* `normalize_outcomes` puts this together: which grammars are turned away at once, in which ways the
  others can fail, and what each outcome says about the words of the grammar.
-/

namespace NormalGrammar

open Sequence Grammar

variable {g h last : Grammar} {limit passes : Nat} {stage : Stage} {rule : Rule} {rules : List Rule}
  {w : List Symbol}

/-! ## Failing only by taking too long -/

/-- Whatever goes wrong in a computation, it is that `stage` was not done within `limit` passes. -/
def OnlyUnsettled {α : Type} (stage : Stage) (limit : Nat) (t : Staged α) : Prop :=
  ∀ e, t.result = .error e → e = .unsettled stage limit

namespace OnlyUnsettled

variable {α β : Type} {t : Staged α} {f : α → Staged β} {a : α}

theorem of_ok (h : t.result = .ok a) : OnlyUnsettled stage limit t := by
  intro e he
  rw [h] at he
  cases he

theorem bind (ht : OnlyUnsettled stage limit t)
    (hf : ∀ a, t.result = .ok a → OnlyUnsettled stage limit (f a)) :
    OnlyUnsettled stage limit (t >>= f) := by
  intro e he
  rcases Traced.result_bind_eq_error_iff.1 he with he | ⟨a, ha, he⟩
  · exact ht e he
  · exact hf a ha e he

theorem unsettled : OnlyUnsettled stage limit (Traced.fail (.unsettled stage limit) : Staged α) := by
  rintro e ⟨⟩
  rfl

end OnlyUnsettled

/-! ## Removing empty right sides -/

namespace EpsilonFree

/-- The left side of every rule is a single symbol. -/
def Headed (rules : List Rule) : Prop := ∀ rule ∈ rules, ∃ x, rule.left = [x]

theorem State.onlyUnsettled_next (hheaded : Headed rules) (eliminated : List Symbol) :
    OnlyUnsettled .epsilonRules limit (State.next rules eliminated) := by
  unfold State.next
  split
  · exact .of_ok rfl
  · rename_i rule hfind
    obtain ⟨x, hx⟩ := hheaded rule (List.mem_of_find?_eq_some hfind)
    have hhead : Stage.headOf .epsilonRules rule = .ok x :=
      Stage.headOf_eq_ok_iff.2 (Rule.head?_eq_some_iff.2 hx)
    exact .bind (.of_ok hhead) fun _ _ => .bind (.of_ok rfl) fun _ _ => .of_ok rfl

/-- The passes go on without trouble, for variants have the left sides of the rules that they are
variants of. -/
theorem State.onlyUnsettled_run (s : State) (hheaded : Headed s.rules) :
    OnlyUnsettled .epsilonRules limit (s.run limit passes) := by
  induction passes generalizing s with
  | zero => exact .unsettled
  | succ passes ih =>
    refine .bind (.of_ok rfl) fun _ _ => ?_
    split
    · refine .bind (onlyUnsettled_next hheaded _) fun o ho => ?_
      cases o with
      | none => exact .of_ok rfl
      | some t =>
        obtain ⟨rule, -, -, x, -, rfl⟩ := next_eq_some ho
        exact ih _ fun r hr => hheaded r (List.mem_of_mem_erase hr)
    · refine ih _ fun r hr => ?_
      rcases List.mem_append.1 hr with hr | hr
      · exact hheaded r hr
      · obtain ⟨rule, hrule, hv⟩ := List.mem_flatMap.1 (mem_missing.1 hr).1
        rw [(mem_variants_iff.1 hv).1]
        exact hheaded rule hrule

end EpsilonFree

namespace Grammar

theorem IsVariant.over (hv : g.IsVariant rule) : rule.Over (g.nonterminals ++ g.terminals) := by
  obtain ⟨right, hright, hε, hd⟩ := hv.origin
  have hover := g.wellFormed.rules_over _ hright
  exact
    { left_ne_nil := hover.left_ne_nil
      right_ne_nil := hv.right_ne_nil
      left_declared := hover.left_declared
      right_declared := .inr fun y hy =>
        List.mem_append.2 (right_declared hright hε (hd.subset hy)) }

/-- **Removing empty right sides** fails only by taking too long. -/
theorem onlyUnsettled_epsilonFree (hcf : g.isContextFree = true) :
    OnlyUnsettled .epsilonRules limit (g.epsilonFree limit) := by
  have hheaded : EpsilonFree.Headed g.rules := fun rule hrule =>
    (isContextFree_iff.1 hcf rule hrule).imp fun _ hx => hx.2
  refine .bind (.bind (EpsilonFree.State.onlyUnsettled_next hheaded _) fun o ho => ?_)
    fun rules hrules => ?_
  · cases o with
    | none => exact .of_ok rfl
    | some s =>
      obtain ⟨rule, -, -, x, -, rfl⟩ := EpsilonFree.next_eq_some ho
      exact EpsilonFree.State.onlyUnsettled_run _ fun r hr => hheaded r (List.mem_of_mem_erase hr)
  · have hall : ∀ rule ∈ rules, rule.Over (g.nonterminals ++ g.terminals) :=
      fun rule hrule => ((EpsilonFree.mem_rules_iff hcf hrules).1 hrule).over
    obtain ⟨h, hbuild⟩ := Stage.exists_build_of_rules .epsilonRules hall
    exact .of_ok hbuild

/-! ## Inlining renamings -/

/-- **Inlining renamings** fails only by taking too long. -/
theorem onlyUnsettled_renamingFree (hcf : g.isContextFree = true) :
    OnlyUnsettled .renamings limit (g.renamingFree limit) := by
  refine .bind ?_ fun rules hrules => ?_
  · rcases RenamingFree.run_spec (RenamingFree.allHeaded_distinct hcf) with
      ⟨-, rules, hok⟩ | ⟨-, herror⟩
    · exact .of_ok hok
    · exact fun e he => Except.error.inj (he.symm.trans herror)
  · have hall : ∀ rule ∈ rules, rule.Over (g.nonterminals ++ g.terminals) := by
      intro rule hrule
      obtain ⟨x, hx, hleft, t⟩ := (RenamingFree.mem_run_iff hcf hrules).1 hrule
      obtain ⟨⟨y, hy⟩, -⟩ := t.exists_rule
      have hover := g.wellFormed.rules_over _ hy
      exact
        { left_ne_nil := by simp [hleft]
          right_ne_nil := hover.right_ne_nil
          left_declared := by simp [hleft, hx]
          right_declared := hover.right_declared }
    obtain ⟨h, hbuild⟩ := Stage.exists_build_of_rules .renamings hall
    exact .of_ok hbuild

/-! ## Keeping what is reachable -/

theorem wellFormed_reachable (hcf : g.isContextFree = true) {found : List Symbol}
    (hfound : ∀ x, x ∈ found ↔ g.IsReachable x) :
    WellFormed g.start (g.nonterminals.filter (· ∈ found)) (g.terminals.filter (· ∈ found))
      (g.rules.filter fun rule => rule.left.all (· ∈ found)) where
  start_mem := by simp [g.wellFormed.start_mem, hfound, IsReachable.start]
  disjoint := fun x hx hx' =>
    g.wellFormed.disjoint x (List.mem_filter.1 hx).1 (List.mem_filter.1 hx').1
  epsilon_not_mem_nonterminals := fun hx =>
    g.wellFormed.epsilon_not_mem_nonterminals (List.mem_filter.1 hx).1
  epsilon_not_mem_terminals := fun hx =>
    g.wellFormed.epsilon_not_mem_terminals (List.mem_filter.1 hx).1
  rules_over := by
    intro rule hrule
    simp only [List.mem_filter, List.all_eq_true, decide_eq_true_eq, hfound] at hrule
    obtain ⟨hrule, hreach⟩ := hrule
    have hover := g.wellFormed.rules_over rule hrule
    obtain ⟨x, hx, hleft⟩ := isContextFree_iff.1 hcf rule hrule
    have hxreach : g.IsReachable x := hreach x (by simp [hleft])
    refine ⟨hover.left_ne_nil, hover.right_ne_nil, by simp [hleft, hx, hfound, hxreach], ?_⟩
    by_cases hε : rule.right = [Symbol.epsilon]
    · exact .inl hε
    · refine .inr fun y hy => ?_
      have hyreach : g.IsReachable y := hxreach.step (mem_rulesOf_iff_left.2 ⟨hrule, hleft⟩) hy
        (ne_epsilon_of_mem_right hrule hε hy)
      simpa [hfound, hyreach] using right_declared hrule hε hy

/-- **Keeping what is reachable** fails only by taking too long. -/
theorem onlyUnsettled_reachable (hcf : g.isContextFree = true) :
    OnlyUnsettled .reachability limit (g.reachable limit) := by
  have hexplore : ∀ passes found visited, OnlyUnsettled .reachability limit
      (liftM (Reachable.explore g limit passes found visited)) := by
    intro passes found visited
    fun_induction Reachable.explore g limit passes found visited with
    | case1 => exact .of_ok rfl
    | case2 => exact .unsettled
    | case3 => assumption
  refine .bind (hexplore _ _ _) fun found hfound => .bind (.of_ok rfl) fun _ _ => ?_
  obtain ⟨h, hbuild⟩ := Stage.exists_build .reachability
    (wellFormed_reachable hcf fun x => Reachable.mem_symbols_iff hfound)
  exact .of_ok hbuild

/-! ## Keeping what is productive -/

/-- What is productive fits together, if the start symbol is: the rules that derive words use nothing
else. -/
theorem wellFormed_productive (hcf : g.isContextFree = true) {known : List Symbol}
    (hknown : ∀ x, x ∈ known ↔ x ∈ g.nonterminals ∧ g.IsProductive x)
    (hstart : g.IsProductive g.start) :
    WellFormed g.start (g.nonterminals.filter (· ∈ known)) g.terminals
      (g.rules.filter (Productive.derives g known)) where
  start_mem := by simp [g.wellFormed.start_mem, hknown, hstart]
  disjoint := fun x hx => g.wellFormed.disjoint x (List.mem_filter.1 hx).1
  epsilon_not_mem_nonterminals := fun hx =>
    g.wellFormed.epsilon_not_mem_nonterminals (List.mem_filter.1 hx).1
  epsilon_not_mem_terminals := g.wellFormed.epsilon_not_mem_terminals
  rules_over := by
    intro rule hrule
    obtain ⟨hrule, hderives⟩ := List.mem_filter.1 hrule
    have hright := Productive.derives_iff.1 hderives
    have hover := g.wellFormed.rules_over rule hrule
    obtain ⟨x, hx, hleft⟩ := isContextFree_iff.1 hcf rule hrule
    obtain ⟨v, d⟩ : ∃ v, g.Derives rule.right v := exists_derives fun y hy =>
      (hright y hy).elim (fun ha => ⟨[y], derives_terminal ha⟩) fun hy => ((hknown y).1 hy).2
    have hxknown : x ∈ known :=
      (hknown x).2 ⟨hx, v, d.of_rule (mem_rulesOf_iff_left.2 ⟨hrule, hleft⟩)⟩
    refine ⟨hover.left_ne_nil, hover.right_ne_nil, by simp [hleft, hx, hxknown], .inr ?_⟩
    intro y hy
    rcases hright y hy with hy | hy
    · simp [hy]
    · simp [hy, ((hknown y).1 hy).1]

/-- **Keeping what is productive** fails by taking too long, or because the start symbol derives no
word and so is dropped. -/
theorem productive_eq_error (hcf : g.isContextFree = true) (hε : g.NoEmptyRules)
    {e : NormalizationError} (he : (g.productive limit).result = .error e) :
    e = .unsettled .productivity limit ∨
      e = .refused .productivity (.undeclaredStart g.start) ∧ ¬ g.IsProductive g.start := by
  have hexplore : ∀ passes known, OnlyUnsettled .productivity limit
      (liftM (Productive.explore g limit passes known)) := by
    intro passes known
    fun_induction Productive.explore g limit passes known with
    | case1 => exact .unsettled
    | case2 => exact .of_ok rfl
    | case3 => assumption
  rcases Traced.result_bind_eq_error_iff.1 he with he | ⟨known, hfound, he⟩
  · exact .inl (hexplore _ _ e he)
  · obtain hnote | ⟨-, -, hbuild⟩ := Traced.result_bind_eq_error_iff.1 he
    · cases hnote
    have hknown : ∀ x, x ∈ known ↔ x ∈ g.nonterminals ∧ g.IsProductive x :=
      fun x => Productive.mem_symbols_iff hcf hε hfound
    by_cases hstart : g.IsProductive g.start
    · obtain ⟨h, hok⟩ :=
        Stage.exists_build .productivity (wellFormed_productive hcf hknown hstart)
      cases hbuild.symm.trans hok
    · have hdropped : g.start ∉ g.nonterminals.filter (· ∈ known) := by simp [hknown, hstart]
      cases hbuild.symm.trans (Stage.productivity.build_of_start_not_mem hdropped)
      exact .inr ⟨rfl, hstart⟩

end Grammar

/-! ## Making normal form -/

namespace Grammar

/-- **Normal form is always reached** from a grammar without empty right sides and renamings. -/
theorem exists_normalForm (hcf : g.isContextFree = true) (hε : g.NoEmptyRules)
    (hno : g.NoRenamings) : ∃ h, g.normalForm.result = .ok h := by
  refine exists_normalForm_iff.2 fun rule hrule => ?_
  obtain ⟨x, -, hleft⟩ := isContextFree_iff.1 hcf rule hrule
  rintro (hlength | ⟨hlength, y, hy, hterminal⟩)
  · exact hlength (by simp [hleft])
  · obtain ⟨z, hz⟩ := List.length_eq_one_iff.1 hlength
    obtain rfl : y = z := by simpa [hz] using hy
    have hn := (right_declared hrule (hε rule hrule) hy).resolve_right hterminal
    exact hno rule hrule y hn hz

end Grammar

/-! ## What the stages keep -/

/-- The start symbol and its words: only the first stage changes them, and takes the empty word away. -/
structure Keeps (stage : Stage) (g h : Grammar) : Prop where
  start_eq : h.start = g.start
  generates_iff : ∀ w, h.Generates w ↔ g.Generates w ∧ (stage.place = 0 → w ≠ [])

/-- **Every stage keeps the start symbol and its words.** -/
theorem Guarantees.keeps (stage : Stage) (hg : Guarantees stage.place g)
    (hh : (stage.run limit g).result = .ok h) : Keeps stage g h := by
  have hcf := hg.contextFree
  -- it is enough that the words of the start symbol are the same, after the first stage
  have later : h.start = g.start → stage.place ≠ 0 →
      (∀ w, h.Derives [g.start] w ↔ g.Derives [g.start] w) → Keeps stage g h := by
    intro hstart hplace hsame
    refine ⟨hstart, fun w => ?_⟩
    rw [Generates, Generates, hstart, hsame]
    simp [hplace]
  cases stage with
  | epsilonRules =>
    have hstart := (epsilonFree_eq_ok hh).1
    refine ⟨hstart, fun w => ?_⟩
    rw [Generates, Generates, hstart, derives_epsilonFree_iff hcf hh g.wellFormed.start_mem]
    simp [Stage.place, Stage.all]
  | renamings =>
    exact later (renamingFree_eq_ok hh).1 (by decide) fun w => derives_renamingFree_iff hcf hh
  | reachability =>
    refine later (reachable_eq_ok hh).1 (by decide) fun w => derives_reachable_iff hh ?_
    simp [IsReachable.start]
  | productivity =>
    have hε := hg.noEmptyRules (by decide)
    exact later (productive_eq_ok hcf hε hh).1 (by decide) fun w => derives_productive_iff hcf hε hh
  | normalForm =>
    obtain ⟨workshop, hnf⟩ := normalForm_eq_ok hcf hh
    refine later hnf.start_eq (by decide) fun w => hnf.derives_iff ?_
    simp [g.wellFormed.start_mem]

namespace Normalization

variable {finished : List (Stage × Grammar)} {n : Nat}

/-- **What a run of the stages keeps**, from the one at place `n` on: the last grammar has the
guarantees of all of them, the start symbol is the same, and so are its words, the empty one aside. -/
theorem Runs.keeps (r : Runs limit g finished last) (hg : Guarantees n g)
    (hplace : ∀ i, ∀ p ∈ finished[i]?, p.1.place = n + i) :
    Guarantees (n + finished.length) last ∧ last.start = g.start ∧
      ∀ w, last.Generates w ↔ g.Generates w ∧ (n = 0 → finished ≠ [] → w ≠ []) := by
  induction r generalizing n with
  | nil => exact ⟨hg, rfl, by simp⟩
  | @cons g h last stage finished hrun _ ih =>
    have hstage : stage.place = n := hplace 0 (stage, h) rfl
    have hkeeps : Keeps stage g h := Guarantees.keeps stage (hstage ▸ hg) hrun
    have hh : Guarantees (n + 1) h := hstage ▸ Guarantees.run stage (hstage ▸ hg) hrun
    obtain ⟨hlast, hstart, hwords⟩ := ih hh fun i p hp => by
      rw [hplace (i + 1) p (by simpa using hp), Nat.add_assoc, Nat.add_comm 1]
    refine ⟨?_, hstart.trans hkeeps.start_eq, fun w => ?_⟩
    · rwa [List.length_cons, ← Nat.add_assoc, Nat.add_right_comm]
    · rw [hwords, hkeeps.generates_iff, hstage]
      simp

end Normalization

/-- How far a grammar comes: all stages finish, or those before one that fails. -/
theorem normalization_cases (hcf : g.isContextFree = true) (limit : Nat) :
    (∃ last, g.normalize limit = .ok last ∧ Guarantees 5 last ∧
        ∀ w, last.Generates w ↔ g.Generates w ∧ w ≠ []) ∨
      ∃ (stage : Stage) (last : Grammar) (e : NormalizationError),
        g.normalize limit = .error e ∧ (stage.run limit last).result = .error e ∧
        Guarantees stage.place last ∧ last.start = g.start ∧
        (stage ≠ .epsilonRules → ∀ w, last.Generates w ↔ g.Generates w ∧ w ≠ []) := by
  rw [Grammar.normalize, normalization_eq hcf]
  obtain ⟨last, hruns, hend⟩ := Normalization.ofStages_runs limit g Stage.all
  generalize (Normalization.ofStages limit g Stage.all).finished = finished at hruns hend
  -- what has finished is a beginning of all stages, so each stage is at its own place
  obtain ⟨rest, hrest⟩ : ∃ rest, Stage.all = finished.map Prod.fst ++ rest := by
    rcases hend with ⟨-, hall⟩ | ⟨stage, after, -, hall, -⟩
    · exact ⟨[], by rw [hall, List.append_nil]⟩
    · exact ⟨stage :: after, hall⟩
  have hplace : ∀ i, ∀ p ∈ finished[i]?, p.1.place = 0 + i := by
    intro i p hp
    rw [Nat.zero_add]
    refine Stage.place_of_getElem? ?_
    have hi : (finished.map Prod.fst)[i]? = some p.1 := by
      rw [List.getElem?_map, hp]
      rfl
    rw [hrest, List.getElem?_append_left (List.getElem?_eq_some_iff.1 hi).1, hi]
  obtain ⟨hlast, hstart, hwords⟩ := hruns.keeps (.initial hcf) hplace
  rw [Nat.zero_add] at hlast
  rcases hend with ⟨hok, hall⟩ | ⟨stage, after, e, hall, herror, hresult⟩
  · have hlength : finished.length = 5 := by simpa [Stage.all] using congrArg List.length hall
    have hne : finished ≠ [] := fun h => by simp [h] at hlength
    exact .inl ⟨last, hok, hlength ▸ hlast, by simpa [hne] using hwords⟩
  · have hlength : stage.place = finished.length := by
      refine Stage.place_of_getElem? ?_
      rw [hall]
      simp
    refine .inr ⟨stage, last, e, hresult, herror, hlength ▸ hlast, hstart, fun hstage => ?_⟩
    have hne : finished ≠ [] := by
      rintro rfl
      exact hstage (List.cons.inj hall).1.symm
    simpa [hne] using hwords

/-! ## Failures -/

/-- How a stage can fail on what the stages before it made: it takes too many passes, or there are no
words to keep. -/
theorem Guarantees.run_eq_error {e : NormalizationError} (hg : Guarantees stage.place g)
    (he : (stage.run limit g).result = .error e) :
    stage ≠ .normalForm ∧ e = .unsettled stage limit ∨
      stage = .productivity ∧ e = .refused .productivity (.undeclaredStart g.start) ∧
        ¬ g.IsProductive g.start := by
  have hcf := hg.contextFree
  cases stage with
  | epsilonRules => exact .inl ⟨nofun, onlyUnsettled_epsilonFree hcf e he⟩
  | renamings => exact .inl ⟨nofun, onlyUnsettled_renamingFree hcf e he⟩
  | reachability => exact .inl ⟨nofun, onlyUnsettled_reachable hcf e he⟩
  | productivity =>
    rcases productive_eq_error hcf (hg.noEmptyRules (by decide)) he with he | ⟨he, hstart⟩
    · exact .inl ⟨nofun, he⟩
    · exact .inr ⟨rfl, he, hstart⟩
  | normalForm =>
    obtain ⟨h, hok⟩ := exists_normalForm hcf (hg.noEmptyRules (by decide))
      (hg.noRenamings (by decide))
    cases he.symm.trans hok

namespace Grammar

theorem kind_wide_iff :
    g.kind = .contextSensitive ∨ g.kind = .recursivelyEnumerable ↔ g.isContextFree = false := by
  have hspec := g.kind_spec
  cases hkind : g.kind <;> simp only [hkind] at hspec <;> simp [hspec]

theorem find?_not_rewritesNonterminal_eq_none_iff :
    g.rules.find? (!g.rewritesNonterminal ·) = none ↔ g.isContextFree = true := by
  simp [isContextFree]

/-- A grammar is turned away for the first rule that does not rewrite one nonterminal. -/
theorem normalize_eq_notContextFree_iff :
    g.normalize limit = .error (.notContextFree rule) ↔
      g.rules.find? (!g.rewritesNonterminal ·) = some rule := by
  constructor
  · intro h
    cases hfind : g.rules.find? (!g.rewritesNonterminal ·) with
    | some first =>
      rw [normalize, normalization, hfind] at h
      cases h
      rfl
    | none =>
      -- all stages run, and a stage that fails blames itself
      have hcf := find?_not_rewritesNonterminal_eq_none_iff.1 hfind
      rcases normalization_cases hcf limit with ⟨n, hn, -⟩ | ⟨stage, last, e, he, hrun, -⟩
      · cases h.symm.trans hn
      · obtain rfl := Except.error.inj (h.symm.trans he)
        cases Stage.run_blames limit last stage _ hrun
  · intro h
    rw [normalize, normalization, h]

theorem exists_normalize_eq_notContextFree_iff :
    (∃ rule, g.normalize limit = .error (.notContextFree rule)) ↔ g.isContextFree = false := by
  simp only [normalize_eq_notContextFree_iff]
  rw [← Option.isSome_iff_exists, ← Option.ne_none_iff_isSome, Ne,
    find?_not_rewritesNonterminal_eq_none_iff, Bool.not_eq_true]

theorem find?_not_rewritesNonterminal_iff :
    g.rules.find? (!g.rewritesNonterminal ·) = some rule ↔
      ∃ before after, g.rules = before ++ rule :: after ∧
        (¬ ∃ x ∈ g.nonterminals, rule.left = [x]) ∧
        ∀ r ∈ before, ∃ x ∈ g.nonterminals, r.left = [x] := by
  simp only [List.find?_eq_some_iff_append, ← rewritesNonterminal_iff, Bool.not_eq_true',
    Bool.not_not, Bool.not_eq_true]
  constructor
  · rintro ⟨hrule, before, after, hsplit, hbefore⟩
    exact ⟨before, after, hsplit, hrule, hbefore⟩
  · rintro ⟨before, after, hsplit, hrule, hbefore⟩
    exact ⟨hrule, before, after, hsplit, hbefore⟩

/-- What can come of a context free grammar, and what that says about its words. -/
theorem normalize_cases_of_isContextFree (hcf : g.isContextFree = true) (limit : Nat) :
    (∃ n, g.normalize limit = .ok n) ∧ (∃ w, w ≠ [] ∧ g.Generates w) ∨
      (∃ stage, stage ≠ .normalForm ∧ g.normalize limit = .error (.unsettled stage limit)) ∨
        g.normalize limit = .error (.refused .productivity (.undeclaredStart g.start)) ∧
          ¬ ∃ w, w ≠ [] ∧ g.Generates w := by
  rcases normalization_cases hcf limit with
    ⟨n, hn, hg, hwords⟩ | ⟨stage, last, e, he, hrun, hg, hstart, hwords⟩
  · obtain ⟨w, hw⟩ := hg.allProductive (by decide) n.start n.wellFormed.start_mem
    obtain ⟨hgen, hne⟩ := (hwords w).1 hw
    exact .inl ⟨⟨n, hn⟩, w, hne, hgen⟩
  · rcases hg.run_eq_error hrun with ⟨hstage, rfl⟩ | ⟨rfl, rfl, hdropped⟩
    · exact .inr (.inl ⟨stage, hstage, he⟩)
    · refine .inr (.inr ⟨hstart ▸ he, ?_⟩)
      rintro ⟨w, hne, hw⟩
      exact hdropped ⟨w, (hwords nofun w).2 ⟨hw, hne⟩⟩

end Grammar

/-- **What can come of a grammar.**  It is turned away, before any stage finishes, just when it is
not context free, and then for the first rule that does not rewrite one nonterminal.  Any other
grammar is brought into normal form, or one of the first four stages takes too many passes, or its
start symbol is dropped as not productive.  It is dropped only if there is no word but the empty
one, and there is a normal form only if there is another word. -/
theorem normalize_outcomes (g : Grammar) (limit : Nat) :
    ((∃ rule, g.normalize limit = .error (.notContextFree rule)) ↔
        g.kind = .contextSensitive ∨ g.kind = .recursivelyEnumerable) ∧
      (∀ rule, g.normalize limit = .error (.notContextFree rule) →
        (g.normalization limit).finished = [] ∧ ∃ before after,
          g.rules = before ++ rule :: after ∧ (¬ ∃ x ∈ g.nonterminals, rule.left = [x]) ∧
            ∀ r ∈ before, ∃ x ∈ g.nonterminals, r.left = [x]) ∧
      (¬ (g.kind = .contextSensitive ∨ g.kind = .recursivelyEnumerable) →
        (∃ n, g.normalize limit = .ok n) ∨
          (∃ stage, stage ≠ .normalForm ∧ g.normalize limit = .error (.unsettled stage limit)) ∨
          g.normalize limit = .error (.refused .productivity (.undeclaredStart g.start))) ∧
      (g.normalize limit = .error (.refused .productivity (.undeclaredStart g.start)) →
        ¬ ∃ w, w ≠ [] ∧ g.Generates w) ∧
      ∀ n, g.normalize limit = .ok n → ∃ w, w ≠ [] ∧ g.Generates w := by
  rw [kind_wide_iff]
  refine ⟨exists_normalize_eq_notContextFree_iff, fun rule h => ?_, ?_⟩
  · have hfind := normalize_eq_notContextFree_iff.1 h
    refine ⟨?_, find?_not_rewritesNonterminal_iff.1 hfind⟩
    rw [normalization, hfind]
  · cases hcf : g.isContextFree with
    | false =>
      obtain ⟨rule, he⟩ : ∃ rule, g.normalize limit = .error (.notContextFree rule) :=
        exists_normalize_eq_notContextFree_iff.2 hcf
      simp [he]
    | true =>
      rcases normalize_cases_of_isContextFree hcf limit with
        ⟨⟨n, hn⟩, hword⟩ | ⟨stage, hstage, he⟩ | ⟨he, hno⟩
      · exact ⟨fun _ => .inl ⟨n, hn⟩, by simp [hn], fun _ _ => hword⟩
      · refine ⟨fun _ => .inr (.inl ⟨stage, hstage, he⟩), ?_, by simp [he]⟩
        rw [he]
        intro hrefused
        cases hrefused
      · exact ⟨fun _ => .inr (.inr he), fun _ => hno, by simp [he]⟩

/-- A grammar with a single rule, which never comes to an end. -/
def endless : Grammar where
  start := ⟨"L"⟩
  nonterminals := [⟨"L"⟩]
  terminals := [⟨"x"⟩]
  rules := [.ofHead ⟨"L"⟩ [⟨"x"⟩, ⟨"L"⟩]]
  nodup_nonterminals := by decide
  nodup_terminals := by decide
  wellFormed := defect?_eq_none_iff.1 (by decide)

/-- The start symbol of `endless` is dropped, for there is no word but the empty one. -/
theorem endless_outcome :
    endless.normalize 10 = .error (.refused .productivity (.undeclaredStart endless.start)) ∧
      ¬ ∃ w, w ≠ [] ∧ endless.Generates w := by
  have herror : endless.normalize 10 =
      .error (.refused .productivity (.undeclaredStart endless.start)) := by decide_cbv
  obtain ⟨-, -, -, hdropped, -⟩ := normalize_outcomes endless 10
  exact ⟨herror, hdropped herror⟩

end NormalGrammar
