import Mathlib
import NormalGrammar.Proofs.Normalization
import NormalGrammar.Proofs.Passes
import NormalGrammar.Proofs.Sameness

/-!
# Grammars that stay as they are

A grammar that has all that the stages are there for comes through all of them unchanged, and no
other grammar does.

* `Stage.Asks` is what a stage asks of a grammar to leave it as it is (`Stage.run_eq_self_iff`).
* What one stage takes away no later stage puts back, so a grammar that comes out as it went in has
  what every stage asks for (`Steps.asks_of_same`).
* `normalize_same_iff` puts both directions together.
-/

namespace NormalGrammar

open Sequence Grammar Normalization

variable {g h e u r p n : Grammar} {limit : Nat} {w : Workshop} {rules : List Rule} {rule : Rule}

/-! ## Stages with nothing to do -/

theorem Stage.build_self (stage : Stage) (g : Grammar) :
    stage.build g.start g.nonterminals g.terminals g.rules = .ok g :=
  Stage.build_eq_ok_iff.2 g.ofParts_self

/-- Where there is no renaming, only repetitions are dropped. -/
theorem RenamingFree.run_distinct (h : g.NoRenamings) :
    (run g limit limit (distinct g.rules)).result = .ok (distinct g.rules) := by
  refine run_of_none (List.find?_eq_none.2 fun rule hrule hrenaming => ?_)
  obtain ⟨x, hx, hright⟩ := isRenaming_iff.1 hrenaming
  exact h rule (mem_distinct.1 hrule) x hx hright

namespace Grammar

theorem epsilonFree_eq_self (h : g.NoEmptyRules) : (g.epsilonFree limit).result = .ok g := by
  have hnone : (EpsilonFree.State.next g.rules []).result = .ok none :=
    EpsilonFree.next_eq_none_iff.2 h
  have hrules : (EpsilonFree.rules limit g.rules).result = .ok g.rules :=
    Traced.result_bind_eq_ok_iff.2 ⟨none, hnone, rfl⟩
  exact Traced.result_bind_eq_ok_iff.2 ⟨g.rules, hrules, Stage.build_self _ g⟩

theorem renamingFree_eq_self (h : g.NoRenamings) (hnodup : g.rules.Nodup) :
    (g.renamingFree limit).result = .ok g := by
  have hrun : (RenamingFree.run g limit limit (distinct g.rules)).result = .ok g.rules := by
    rw [RenamingFree.run_distinct h, distinct_eq_self hnodup]
  exact Traced.result_bind_eq_ok_iff.2 ⟨g.rules, hrun, Stage.build_self _ g⟩

theorem reachable_eq_self (h : g.AllReachable)
    (hlimit : g.nonterminals.length + g.terminals.length ≤ limit) :
    (g.reachable limit).result = .ok g := by
  obtain ⟨found, hfound⟩ := Reachable.exists_symbols hlimit
  have hall : ∀ x ∈ g.nonterminals ++ g.terminals, x ∈ found := fun x hx =>
    (Reachable.mem_symbols_iff hfound).2 (h x hx)
  have hn : g.nonterminals.filter (· ∈ found) = g.nonterminals :=
    List.filter_eq_self.2 fun x hx => by simpa using hall x (List.mem_append_left _ hx)
  have ht : g.terminals.filter (· ∈ found) = g.terminals :=
    List.filter_eq_self.2 fun x hx => by simpa using hall x (List.mem_append_right _ hx)
  have hr : (g.rules.filter fun rule => rule.left.all (· ∈ found)) = g.rules := by
    refine List.filter_eq_self.2 fun rule hrule => ?_
    have hleft := (g.wellFormed.rules_over rule hrule).left_declared
    simpa using fun x hx => hall x (hleft x hx)
  refine Traced.result_bind_eq_ok_iff.2 ⟨found, hfound, Traced.result_bind_eq_ok_iff.2 ⟨_, rfl, ?_⟩⟩
  rw [hn, ht, hr]
  exact Stage.build_self _ g

theorem productive_eq_self (hcf : g.isContextFree = true) (hε : g.NoEmptyRules)
    (h : g.AllProductive) (hlimit : g.nonterminals.length < limit) :
    (g.productive limit).result = .ok g := by
  obtain ⟨known, hknown⟩ := Productive.exists_symbols hcf hlimit
  have hall : ∀ x ∈ g.nonterminals, x ∈ known := fun x hx =>
    (Productive.mem_symbols_iff hcf hε hknown).2 ⟨hx, h x hx⟩
  have hn : g.nonterminals.filter (· ∈ known) = g.nonterminals :=
    List.filter_eq_self.2 fun x hx => by simpa using hall x hx
  have hr : g.rules.filter (Productive.derives g known) = g.rules := by
    refine List.filter_eq_self.2 fun rule hrule => Productive.derives_iff.2 fun y hy => ?_
    exact (right_declared hrule (hε rule hrule) hy).symm.imp_right (hall y)
  refine Traced.result_bind_eq_ok_iff.2 ⟨known, hknown, Traced.result_bind_eq_ok_iff.2 ⟨_, rfl, ?_⟩⟩
  rw [hn, hr]
  exact Stage.build_self _ g

end Grammar

namespace Workshop

/-- A rule in normal form is kept, and nothing is learned from it. -/
theorem convert_of_isNormal (w : Workshop) (h : g.isNormal rule = true) :
    w.convert g rule = .ok (rule.right, w) := by
  obtain ⟨x, -, ⟨a, ha, rfl⟩ | ⟨y, hy, z, hz, rfl⟩⟩ := isNormal_iff.1 h
  · simp [convert, Stage.headOf, Rule.ofHead, Rule.head?, ha, bind, Except.bind]
  · simp [convert, Stage.headOf, Rule.ofHead, Rule.head?, hy, hz, bind, Except.bind]

theorem convertAll_of_isNormal (w : Workshop) (h : ∀ rule ∈ rules, g.isNormal rule = true) :
    (w.convertAll g rules).result = .ok (rules, w) := by
  induction rules with
  | nil => rfl
  | cons rule rest ih =>
    rw [List.forall_mem_cons] at h
    simp [convertAll, convert_of_isNormal w h.1, ih h.2, Except.bind]

end Workshop

theorem Grammar.normalForm_eq_self (h : g.AllNormal) : g.normalForm.result = .ok g := by
  have hrules := (Workshop.ofGrammar g).convertAll_of_isNormal fun rule hrule =>
    isNormal_iff.2 (h rule hrule)
  refine Traced.result_bind_eq_ok_iff.2 ⟨_, hrules, ?_⟩
  simp only [Workshop.nonterminals, Workshop.minted_ofGrammar, List.map_nil, List.append_nil]
  exact Stage.build_self _ g

/-! ## What each stage asks -/

/-- What a stage asks of a grammar to leave it as it is. -/
def Stage.Asks : Stage → Grammar → Prop
  | .epsilonRules, g => g.NoEmptyRules
  | .renamings, g => g.NoRenamings ∧ g.rules.Nodup
  | .reachability, g => g.AllReachable
  | .productivity, g => g.AllProductive
  | .normalForm, g => g.AllNormal

/-- **A stage leaves a grammar as it is** just when the grammar has what the stage asks for, where it
has what the stages before promise. -/
theorem Stage.run_eq_self_iff (stage : Stage) (hg : Guarantees stage.place g)
    (hlimit : g.nonterminals.length + g.terminals.length < limit) :
    (stage.run limit g).result = .ok g ↔ stage.Asks g := by
  have hcf := hg.contextFree
  cases stage with
  | epsilonRules => exact ⟨noEmptyRules_epsilonFree hcf, epsilonFree_eq_self⟩
  | renamings =>
    refine ⟨fun hh => ?_, fun h => renamingFree_eq_self h.1 h.2⟩
    have hno := noRenamings_renamingFree hcf hh
    obtain ⟨-, -, -, hrun⟩ := renamingFree_eq_ok hh
    have hrules : g.rules = distinct g.rules :=
      Except.ok.inj (hrun.symm.trans (RenamingFree.run_distinct hno))
    refine ⟨hno, ?_⟩
    rw [hrules]
    exact nodup_distinct _
  | reachability => exact ⟨allReachable_reachable, fun h => reachable_eq_self h (by omega)⟩
  | productivity =>
    have hε := hg.noEmptyRules (by decide)
    exact ⟨allProductive_productive hcf hε, fun h => productive_eq_self hcf hε h (by omega)⟩
  | normalForm =>
    refine ⟨fun hh => ?_, normalForm_eq_self⟩
    obtain ⟨w, hnf⟩ := normalForm_eq_ok hcf hh
    exact hnf.allNormal hcf

/-- A grammar has all that the stages ask for just when its rules are in normal form and different,
and all symbols are reachable and productive. -/
theorem forall_asks_iff : (∀ stage : Stage, stage.Asks g) ↔
    g.AllNormal ∧ g.rules.Nodup ∧ g.AllReachable ∧ g.AllProductive := by
  constructor
  · intro h
    exact ⟨h .normalForm, (h .renamings).2, h .reachability, h .productivity⟩
  · rintro ⟨hnormal, hnodup, hreach, hproductive⟩ stage
    cases stage with
    | epsilonRules => exact hnormal.noEmptyRules
    | renamings => exact ⟨hnormal.noRenamings, hnodup⟩
    | reachability => exact hreach
    | productivity => exact hproductive
    | normalForm => exact hnormal

/-- A grammar with all that the stages promise has what each of them relies on. -/
theorem Guarantees.of_asks (h : ∀ stage : Stage, stage.Asks g) (k : Nat) : Guarantees k g where
  contextFree := (h .normalForm).isContextFree
  noEmptyRules := fun _ => h .epsilonRules
  noRenamings := fun _ => (h .renamings).1
  allProductive := fun _ => h .productivity
  allNormal := fun _ => h .normalForm

theorem Normalization.ofStages_eq_self {stages : List Stage}
    (h : ∀ stage ∈ stages, (stage.run limit g).result = .ok g) :
    (ofStages limit g stages).result = .ok g := by
  induction stages with
  | nil => rfl
  | cons stage rest ih =>
    rw [List.forall_mem_cons] at h
    simp only [ofStages, result_announced, h.1]
    exact ih h.2

/-- **A grammar that has all that is asked for is its own normal form.** -/
theorem normalize_eq_self (h : ∀ stage : Stage, stage.Asks g)
    (hlimit : g.nonterminals.length + g.terminals.length < limit) : g.normalize limit = .ok g := by
  rw [Grammar.normalize, normalization_eq (h .normalForm).isContextFree]
  exact ofStages_eq_self fun stage _ => (stage.run_eq_self_iff (.of_asks h _) hlimit).2 (h stage)

/-! ## Nothing is put back -/

namespace Grammar

theorem AllNormal.mono (hg : g.AllNormal) (hrules : ∀ rule ∈ h.rules, rule ∈ g.rules)
    (hn : ∀ x ∈ h.nonterminals, x ∈ g.nonterminals) (ht : ∀ x ∈ h.terminals, x ∈ g.terminals) :
    h.AllNormal := by
  -- what stands in a rule that is left is left, as the kind of symbol that it was
  have nonterminal : ∀ x ∈ g.nonterminals, x ∈ h.nonterminals ∨ x ∈ h.terminals →
      x ∈ h.nonterminals := fun x hx hmem =>
    hmem.resolve_right fun hx' => not_mem_terminals hx (ht x hx')
  intro rule hrule
  have hright := fun y => right_declared (y := y) hrule (hg.noEmptyRules rule (hrules rule hrule))
  obtain ⟨x, hx, hcase⟩ := hg rule (hrules rule hrule)
  have hx' : x ∈ h.nonterminals := by
    have hleft := (h.wellFormed.rules_over rule hrule).left_declared
    refine nonterminal x hx (List.mem_append.1 (hleft x ?_))
    rcases hcase with ⟨a, -, rfl⟩ | ⟨y, -, z, -, rfl⟩ <;> exact List.mem_singleton_self x
  rcases hcase with ⟨a, ha, rfl⟩ | ⟨y, hy, z, hz, rfl⟩
  · have ha' : a ∈ h.terminals := (hright a (by simp [Rule.ofHead])).resolve_left fun hn' =>
      not_mem_terminals (hn a hn') ha
    exact ⟨x, hx', .inl ⟨a, ha', rfl⟩⟩
  · have hy' := nonterminal y hy (hright y (by simp [Rule.ofHead]))
    have hz' := nonterminal z hz (hright z (by simp [Rule.ofHead]))
    exact ⟨x, hx', .inr ⟨y, hy', z, hz', rfl⟩⟩

end Grammar

/-- On the way of a grammar whose rules are in normal form, the first and the last stage do nothing,
and the second only drops repetitions. -/
theorem Steps.of_allNormal (s : Steps limit g e u r p n) (hg : g.AllNormal) :
    (u.nonterminals = g.nonterminals ∧ u.terminals = g.terminals ∧ u.rules = distinct g.rules) ∧
      n = p := by
  obtain rfl : e = g :=
    Except.ok.inj (s.epsilonFree.symm.trans (epsilonFree_eq_self hg.noEmptyRules))
  obtain ⟨-, hnu, htu, hrun⟩ := renamingFree_eq_ok s.renamingFree
  have hru : u.rules = distinct e.rules :=
    Except.ok.inj (hrun.symm.trans (RenamingFree.run_distinct hg.noRenamings))
  refine ⟨⟨hnu, htu, hru⟩, ?_⟩
  obtain ⟨hcf, hε, -⟩ := s.parts hg.isContextFree
  obtain ⟨-, hnr, htr, hrr⟩ := reachable_eq_ok s.reachable
  obtain ⟨-, hnp, htp, hrp⟩ := productive_eq_ok hcf hε s.productive
  have hp : p.AllNormal := by
    refine hg.mono (fun rule hrule => ?_) (fun x hx => ?_) fun x hx => ?_
    · have hrule := ((hrr rule).1 ((hrp rule).1 hrule).1).1
      rwa [hru, mem_distinct] at hrule
    · exact hnu ▸ ((hnr x).1 ((hnp x).1 hx).1).1
    · exact htu ▸ ((htr x).1 (htp ▸ hx)).1
  exact Except.ok.inj (s.normalForm.symm.trans (normalForm_eq_self hp))

/-- **Nothing is put back**: a grammar that comes out as it went in has all that the stages ask for,
since what a stage took away would be missing in the end. -/
theorem Steps.asks_of_same (s : Steps limit g e u r p n) (hcf : g.isContextFree = true)
    (hlimit : g.nonterminals.length + g.terminals.length < limit) (hsame : Same n g) :
    ∀ stage : Stage, stage.Asks g := by
  obtain ⟨-, -, -, -, hn⟩ := s.guarantees hcf
  have hnormal : g.AllNormal := hsame.allNormal_iff.1 (hn.allNormal (by decide))
  have hproductive : g.AllProductive := hsame.allProductive_iff.1 (hn.allProductive (by decide))
  obtain ⟨⟨hnu, htu, hru⟩, rfl⟩ := s.of_allNormal hnormal
  obtain ⟨hrcf, hε, -⟩ := s.parts hcf
  obtain ⟨-, hnr, htr, -⟩ := reachable_eq_ok s.reachable
  obtain ⟨-, hnp, htp, -⟩ := productive_eq_ok hrcf hε s.productive
  rw [← hnu, ← htu] at hlimit
  -- all symbols are there in the end, so the third stage kept all of them
  have hreach : u.AllReachable := by
    intro x hx
    rcases List.mem_append.1 hx with hx | hx
    · have hx := hsame.nonterminals_superset x (hnu ▸ hx)
      exact ((hnr x).1 ((hnp x).1 hx).1).2
    · have hx := hsame.terminals_superset x (htu ▸ hx)
      exact ((htr x).1 (htp ▸ hx)).2
  obtain rfl : r = u :=
    Except.ok.inj (s.reachable.symm.trans (reachable_eq_self hreach (by omega)))
  have hkept : r.AllProductive := fun x hx =>
    ((hnp x).1 (hsame.nonterminals_superset x (hnu ▸ hx))).2
  obtain rfl : n = r :=
    Except.ok.inj (s.productive.symm.trans (productive_eq_self hrcf hε hkept (by omega)))
  have hnodup : g.rules.Nodup := by
    rw [← hsame.rules_eq, hru]
    exact nodup_distinct _
  exact forall_asks_iff.2 ⟨hnormal, hnodup, hsame.allReachable_iff.1 hreach, hproductive⟩

/-! ## Fixed points -/

/-- **The grammars that normalization leaves as they are.**  With more passes than there are symbols,
a grammar comes out the same just when its rules are in normal form, no rule is there twice, every
symbol is reachable and every nonterminal derives a word. -/
theorem normalize_same_iff (hcf : g.isContextFree = true)
    (hlimit : g.nonterminals.length + g.terminals.length < limit) :
    (∃ n, g.normalize limit = .ok n ∧ Same n g ∧ n.kind = g.kind) ↔
      g.AllNormal ∧ g.rules.Nodup ∧ g.AllReachable ∧ g.AllProductive := by
  rw [← forall_asks_iff]
  constructor
  · rintro ⟨n, hn, hsame, -⟩
    obtain ⟨e, u, r, p, s, -⟩ := normalize_eq_ok hcf hn
    exact s.asks_of_same hcf hlimit hsame
  · intro h
    exact ⟨g, normalize_eq_self h hlimit, .refl g, rfl⟩

/-- A grammar in normal form, with all symbols in use. -/
def settled : Grammar where
  start := ⟨"P"⟩
  nonterminals := [⟨"P"⟩, ⟨"Q"⟩]
  terminals := [⟨"p"⟩, ⟨"q"⟩]
  rules := [.ofHead ⟨"P"⟩ [⟨"P"⟩, ⟨"Q"⟩], .ofHead ⟨"P"⟩ [⟨"p"⟩], .ofHead ⟨"Q"⟩ [⟨"q"⟩]]
  nodup_nonterminals := by decide
  nodup_terminals := by decide
  wellFormed := defect?_eq_none_iff.1 (by decide)

/-- `settled` is left as it is, so all its symbols are reachable and productive. -/
theorem settled_stays : settled.isContextFree = true ∧
    settled.nonterminals.length + settled.terminals.length < 5 ∧
    settled.normalize 5 = .ok settled ∧ settled.AllNormal ∧ settled.rules.Nodup ∧
    settled.AllReachable ∧ settled.AllProductive := by
  have hcf : settled.isContextFree = true := by decide
  have hlimit : settled.nonterminals.length + settled.terminals.length < 5 := by decide
  have hn : settled.normalize 5 = .ok settled := by decide_cbv
  exact ⟨hcf, hlimit, hn, (normalize_same_iff hcf hlimit).1 ⟨settled, hn, .refl _, rfl⟩⟩

end NormalGrammar
