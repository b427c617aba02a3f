import NormalGrammar.Proofs.Failures
import NormalGrammar.Proofs.Naming

/-!
# What the last stage accepts

The last stage is meant for context free grammars, but it also works on others, where a terminal may
have rules and so serve as a helper.  All the same it never makes anything that does not fit together.

* A workshop is `Coherent` at all times: helpers are declared symbols or were made, and what they
  stand for consists of such symbols.  Unlike `Workshop.Valid`, this asks nothing of the grammar, and
  tells nothing about the form of the rules.
* So the converted rules fit together with the symbols (`Workshop.Numbered.wellFormed`), and all that
  can go wrong is that a rule is `Unsuited`.
* `normalForm_fails_iff` says just when the stage fails, and in which way.
-/

namespace NormalGrammar

open Grammar

variable {g : Grammar} {rule : Rule} {rules out : List Rule} {e : NormalizationError}

/-- A rule is unsuited if its left side is not one symbol, or its right side is one symbol that is no
terminal. -/
def Grammar.Unsuited (g : Grammar) (rule : Rule) : Prop :=
  rule.left.length ≠ 1 ∨ rule.right.length = 1 ∧ ∃ y ∈ rule.right, y ∉ g.terminals

instance (g : Grammar) : DecidablePred g.Unsuited := fun _ =>
  inferInstanceAs (Decidable (_ ∨ _))

namespace Workshop

variable {w w' after last : Workshop} {h k : Helper} {x : Symbol} {pattern right xs ys : List Symbol}

/-! ## What is taken -/

theorem Grows.taken_subset (grows : Grows w w') : w.taken g ⊆ w'.taken g := by
  intro x hx
  rw [mem_taken_iff] at hx ⊢
  exact hx.imp_right fun hm => (grows.minted_extends.map Helper.symbol).subset hm

theorem declared_subset_taken : g.nonterminals ++ g.terminals ⊆ w.taken g :=
  fun _ hx => mem_taken_iff.2 (.inl hx)

/-! ## Helpers and what they stand for -/

/-- What holds of a workshop at all times, whatever the grammar is: helpers are declared symbols or
were made, and those that were made stand for such symbols. -/
structure Coherent (g : Grammar) (w : Workshop) : Prop where
  minted_subset : w.minted ⊆ w.known
  known_taken : ∀ h ∈ w.known, h.symbol ∈ w.taken g
  minted_over : ∀ h ∈ w.minted, h.rule.Over (w.taken g)

namespace Coherent

theorem learn (c : Coherent g w) (hk : k.symbol ∈ w.taken g) : Coherent g (w.learn k) where
  minted_subset := by
    rw [minted_learn]
    exact List.Subset.trans c.minted_subset known_subset_learn
  known_taken := by
    intro h hh
    rw [taken_learn]
    rcases mem_known_learn hh with hh | rfl
    · exact c.known_taken h hh
    · exact hk
  minted_over := by simpa using c.minted_over

theorem mint (c : Coherent g w) (hne : pattern ≠ []) (hsub : pattern ⊆ w.taken g)
    (hnone : w.helperFor? pattern = none) (hm : w.mint g pattern = (x, w')) :
    Coherent g w' ∧ x ∈ w'.taken g := by
  obtain ⟨-, hknown, hminted⟩ := mint_spec c.known_taken hnone hm
  have hgrows : w.taken g ⊆ w'.taken g :=
    Grows.taken_subset ⟨by simp [hknown], by simp [hminted]⟩
  have hx : x ∈ w'.taken g := mem_taken_iff.2 (.inr (by simp [hminted]))
  refine ⟨⟨?_, ?_, ?_⟩, hx⟩
  · rw [hknown, hminted]
    exact List.append_subset.2 ⟨List.subset_append_of_subset_left _ c.minted_subset, by simp⟩
  · simp only [hknown, List.forall_mem_append, List.forall_mem_singleton]
    exact ⟨fun h hh => hgrows (c.known_taken h hh), hx⟩
  · simp only [hminted, List.forall_mem_append, List.forall_mem_singleton]
    refine ⟨fun h hh => (c.minted_over h hh).mono hgrows, ?_⟩
    exact
      { left_ne_nil := List.cons_ne_nil _ _
        right_ne_nil := hne
        left_declared := List.forall_mem_singleton.2 hx
        right_declared := .inr fun y hy => hgrows (hsub hy) }

theorem supply (c : Coherent g w) (hne : pattern ≠ []) (hsub : pattern ⊆ w.taken g)
    (hs : w.supply g pattern = (x, w')) : Coherent g w' ∧ x ∈ w'.taken g := by
  unfold Workshop.supply at hs
  split at hs
  · rename_i y hy
    obtain ⟨rfl, rfl⟩ := Prod.mk.inj hs
    exact ⟨c, c.known_taken _ (mem_known_of_helperFor? hy)⟩
  · rename_i hnone
    exact c.mint hne hsub hnone hs

theorem isolate (c : Coherent g w) (hsub : xs ⊆ w.taken g) (hi : w.isolate g xs = (ys, w')) :
    Coherent g w' ∧ ys ⊆ w'.taken g := by
  induction xs generalizing w ys with
  | nil =>
    obtain ⟨rfl, rfl⟩ := Prod.mk.inj hi
    exact ⟨c, by simp⟩
  | cons x xs ih =>
    obtain ⟨hx, hxs⟩ := List.cons_subset.1 hsub
    -- the first symbol leads to a workshop `w₁`, from which the others are isolated
    obtain ⟨y, w₁, hy, c₁, hy₁, hgrows⟩ : ∃ y w₁,
        (if g.isTerminal x then w.supply g [x] else (x, w)) = (y, w₁) ∧
          Coherent g w₁ ∧ y ∈ w₁.taken g ∧ w.taken g ⊆ w₁.taken g := by
      split
      · obtain ⟨c₁, hy₁⟩ := c.supply (List.cons_ne_nil x []) (by simpa using hx) rfl
        have hkept := (kept_grows g w).supply [x] (.refl w)
        exact ⟨_, _, rfl, c₁, hy₁, hkept.taken_subset⟩
      · exact ⟨x, w, rfl, c, hx, List.Subset.refl _⟩
    rw [Workshop.isolate, hy] at hi
    obtain ⟨rfl, rfl⟩ := Prod.mk.inj hi
    obtain ⟨c', hys⟩ := ih c₁ (List.Subset.trans hxs hgrows) rfl
    have hkept := (kept_grows g w₁).isolate xs (.refl w₁)
    exact ⟨c', List.cons_subset.2 ⟨hkept.taken_subset hy₁, hys⟩⟩

theorem fold (c : Coherent g w) (hsub : xs ⊆ w.taken g) (hf : w.fold g xs = (ys, w')) :
    Coherent g w' ∧ ys ⊆ w'.taken g ∧ (xs ≠ [] → ys ≠ []) := by
  fun_induction Workshop.fold g w xs generalizing ys w' with
  | case1 w x y z rest pair w₁ hpair h w₂ hsupply ih =>
    obtain ⟨rfl, rfl⟩ := Prod.mk.inj hf
    obtain ⟨hx, hrest⟩ := List.cons_subset.1 hsub
    obtain ⟨c₁, hpairs, hne⟩ := ih c hrest hpair
    obtain ⟨c₂, hh⟩ := c₁.supply (hne (List.cons_ne_nil _ _)) hpairs hsupply
    have hkept := (kept_grows g w).fold (x :: y :: z :: rest) (.refl w)
    rw [Workshop.fold, hpair] at hkept
    simp only [hsupply] at hkept
    refine ⟨c₂, List.cons_subset.2 ⟨hkept.taken_subset hx, by simpa using hh⟩, fun _ => ?_⟩
    exact List.cons_ne_nil _ _
  | case2 w xs hshort =>
    obtain ⟨rfl, rfl⟩ := Prod.mk.inj hf
    exact ⟨c, hsub, id⟩

/-- A rule is converted to one over the symbols that are taken then. -/
theorem convert (c : Coherent g w) (hrule : rule ∈ g.rules)
    (hc : w.convert g rule = .ok (right, after)) :
    Coherent g after ∧ Rule.Over (after.taken g) ⟨rule.left, right⟩ := by
  have hover := g.wellFormed.rules_over rule hrule
  obtain ⟨x, hleft, ⟨hfinished, rfl, rfl⟩ | ⟨-, -, hε, isolated, w₁, w₂, hi, hf, rfl⟩⟩ :=
    convert_eq_ok_cases hc
  · have hright : ∀ y ∈ rule.right, y ∈ after.taken g := by
      rcases hfinished with ⟨a, ha, hr⟩ | ⟨y, hy, z, hz, hr⟩
      · simp [hr, taken, ha]
      · simpa [hr] using ⟨List.mem_append_left _ hy, List.mem_append_left _ hz⟩
    exact ⟨c, { hover.mono declared_subset_taken with right_declared := .inr hright }⟩
  · have hright : rule.right ⊆ g.nonterminals ++ g.terminals :=
      hover.right_declared.resolve_left fun hr => hε (by simp [hr])
    have hlength := length_isolate g w rule.right
    rw [hi] at hlength
    obtain ⟨c₁, hisolated⟩ := c.isolate (List.Subset.trans hright declared_subset_taken) hi
    obtain ⟨c₂, hfolded, hne⟩ := c₁.fold hisolated hf
    have hleft' : ∀ y ∈ rule.left, y ∈ w₂.taken g :=
      fun y hy => declared_subset_taken (hover.left_declared y hy)
    have hover' : Rule.Over (w₂.taken g) ⟨rule.left, right⟩ :=
      { left_ne_nil := hover.left_ne_nil
        right_ne_nil := hne fun hnil => hover.right_ne_nil (by simpa [hnil, eq_comm] using hlength)
        left_declared := hleft'
        right_declared := .inr hfolded }
    split
    · exact ⟨c₂.learn (hleft' x (by simp [hleft])), by simpa using hover'⟩
    · exact ⟨c₂, hover'⟩

/-- **All rules are converted** to rules over the symbols that are taken in the end. -/
theorem convertAll (c : Coherent g w) (hrules : rules ⊆ g.rules)
    (hc : (w.convertAll g rules).result = .ok (out, last)) :
    Coherent g last ∧ ∀ rule ∈ out, rule.Over (last.taken g) := by
  induction rules generalizing w out with
  | nil =>
    obtain ⟨rfl, rfl⟩ := Prod.mk.inj (Except.ok.inj hc)
    exact ⟨c, nofun⟩
  | cons rule rest ih =>
    obtain ⟨hrule, hrest⟩ := List.cons_subset.1 hrules
    obtain ⟨right, after, others, hone, hall, rfl⟩ := convertAll_cons_eq_ok hc
    obtain ⟨c₁, hover⟩ := c.convert hrule hone
    obtain ⟨c₂, hothers⟩ := ih c₁ hrest hall
    have hgrows : Grows after last := (kept_grows g after).convertAll hall (.refl after)
    refine ⟨c₂, fun r hr => ?_⟩
    rcases List.mem_append.1 hr with hr | hr
    · rcases List.mem_cons.1 hr with rfl | hr
      · exact hover.mono hgrows.taken_subset
      · obtain ⟨h, hh, rfl⟩ := List.mem_map.1 hr
        exact (c₁.minted_over h (List.mem_of_mem_drop hh)).mono hgrows.taken_subset
    · exact hothers r hr

theorem ofGrammar (g : Grammar) : Coherent g (ofGrammar g) := by
  refine ofGrammar_induction ⟨nofun, nofun, nofun⟩ fun w k ⟨_, hrule, _⟩ c => c.learn ?_
  exact declared_subset_taken (declared_of_mem_rulesOf (ofHead_mem_rulesOf.2 hrule))

end Coherent

/-- A new helper's name is free in the grammar, and not the empty word. -/
theorem Numbered.symbol_spec (hn : Numbered g w) (hh : h ∈ w.minted) :
    h.symbol ∉ g.nonterminals ++ g.terminals ∧ h.symbol ≠ Symbol.epsilon := by
  have hmem : h.symbol ∈ freeNames g w.next := hn ▸ List.mem_map_of_mem hh
  obtain ⟨hnumber, hfree⟩ := List.mem_filter.1 hmem
  obtain ⟨n, -, hn⟩ := List.mem_map.1 hnumber
  exact ⟨of_decide_eq_true hfree, hn ▸ Symbol.ofNumber_ne_epsilon n⟩

/-- Rules over the symbols that are taken fit together with these. -/
theorem Numbered.wellFormed (hn : Numbered g w) (hover : ∀ rule ∈ rules, rule.Over (w.taken g)) :
    WellFormed g.start (w.nonterminals g) g.terminals rules where
  start_mem := mem_nonterminals.2 (.inl g.wellFormed.start_mem)
  disjoint := by
    intro x hx hterminal
    obtain hx | ⟨h, hh, rfl⟩ := mem_nonterminals.1 hx
    · exact g.wellFormed.disjoint x hx hterminal
    · exact (hn.symbol_spec hh).1 (List.mem_append_right _ hterminal)
  epsilon_not_mem_nonterminals := by
    intro hε
    obtain hε | ⟨h, hh, he⟩ := mem_nonterminals.1 hε
    · exact g.wellFormed.epsilon_not_mem_nonterminals hε
    · exact (hn.symbol_spec hh).2 he
  epsilon_not_mem_terminals := g.wellFormed.epsilon_not_mem_terminals
  rules_over := hover

/-! ## Unsuited rules -/

theorem refused_iff (w : Workshop) (hrule : rule ∈ g.rules) :
    (rule.left.length ≠ 1 ∨
        ¬ w.Finished g rule.right ∧ (rule.right.length = 1 ∨ Symbol.epsilon ∈ rule.right)) ↔
      g.Unsuited rule := by
  refine or_congr_right ⟨fun ⟨hnot, hright⟩ => ?_, fun ⟨hlength, y, hy, hterminal⟩ => ?_⟩
  · -- the empty word stands alone, and is no terminal
    have hlength : rule.right.length = 1 := by
      rcases hright with hlength | hε
      · exact hlength
      · by_contra hlength
        have hne : rule.right ≠ [Symbol.epsilon] := fun he => hlength (by simp [he])
        exact ne_epsilon_of_mem_right hrule hne hε rfl
    obtain ⟨y, hy⟩ := List.length_eq_one_iff.1 hlength
    exact ⟨hlength, y, by simp [hy], fun ha => hnot (.inl ⟨y, ha, hy⟩)⟩
  · obtain ⟨z, hz⟩ := List.length_eq_one_iff.1 hlength
    obtain rfl : y = z := by simpa [hz] using hy
    refine ⟨?_, .inl hlength⟩
    rw [hz]
    rintro (⟨a, ha, he⟩ | ⟨u, -, v, -, he⟩)
    · exact hterminal (List.singleton_inj.1 he ▸ ha)
    · cases he

/-- A rule of the grammar is converted, unless it is unsuited. -/
theorem convert_eq_error_iff (hrule : rule ∈ g.rules) :
    w.convert g rule = .error e ↔ g.Unsuited rule ∧ e = .unsuited .normalForm rule := by
  have hrefused := refused_iff w hrule
  rcases convert_cases w g rule with ⟨hreason, herror⟩ | ⟨x, hleft, hcases⟩
  · simp [herror, hrefused.1 hreason, eq_comm]
  · have hsuited : ¬ g.Unsuited rule := by
      rw [← hrefused]
      rintro (hlength | ⟨hnot, hright⟩)
      · exact hlength (by simp [hleft])
      · rcases hcases with ⟨hfinished, -⟩ | ⟨-, hlength, hε, -⟩
        · exact hnot hfinished
        · exact hright.elim hlength hε
    rcases hcases with ⟨-, hok⟩ | ⟨-, -, -, _, _, _, _, -, -, hok⟩ <;> simp [hok, hsuited]

/-- **The first unsuited rule is blamed**, and without one all rules are converted. -/
theorem convertAll_eq_error_iff (hrules : rules ⊆ g.rules) :
    (w.convertAll g rules).result = .error e ↔
      ∃ rule, rules.find? (g.Unsuited ·) = some rule ∧ e = .unsuited .normalForm rule := by
  induction rules generalizing w with
  | nil => simp [convertAll]
  | cons rule rest ih =>
    obtain ⟨hrule, hrest⟩ := List.cons_subset.1 hrules
    rw [convertAll, Traced.result_bind_eq_error_iff]
    by_cases hunsuited : g.Unsuited rule
    · have herror : w.convert g rule = .error (.unsuited .normalForm rule) :=
        (convert_eq_error_iff hrule).2 ⟨hunsuited, rfl⟩
      rw [List.find?_cons_of_pos (by simpa using hunsuited)]
      simp [herror, eq_comm]
    · rw [List.find?_cons_of_neg (by simpa using hunsuited)]
      cases hone : w.convert g rule with
      | error e => exact absurd ((convert_eq_error_iff hrule).1 hone).1 hunsuited
      | ok turned =>
        rw [← ih hrest (w := turned.2)]
        cases hothers : (turned.2.convertAll g rest).result <;> simp [hothers, Except.bind]

end Workshop

/-! ## What the stage accepts -/

namespace Grammar

theorem exists_find?_unsuited :
    (∃ rule, g.rules.find? (g.Unsuited ·) = some rule) ↔ ∃ rule ∈ g.rules, g.Unsuited rule := by
  rw [← Option.isSome_iff_exists, List.find?_isSome]
  simp only [decide_eq_true_eq]

/-- What was converted fits together, so all that goes wrong is that a rule is unsuited. -/
theorem normalForm_eq_error_iff : g.normalForm.result = .error e ↔
    ∃ rule, g.rules.find? (g.Unsuited ·) = some rule ∧ e = .unsuited .normalForm rule := by
  rw [normalForm, Traced.result_bind_eq_error_iff, Workshop.convertAll_eq_error_iff (fun _ h => h)]
  refine or_iff_left ?_
  rintro ⟨⟨rules, w⟩, hc, he⟩
  obtain ⟨-, hover⟩ := (Workshop.Coherent.ofGrammar g).convertAll (fun _ h => h) hc
  have kept := Workshop.kept_numbered g
  have hnumbered : Workshop.Numbered g w := kept.convertAll hc (kept.ofGrammar rfl)
  obtain ⟨h, hbuild⟩ := Stage.normalForm.exists_build (hnumbered.wellFormed hover)
  cases he.symm.trans hbuild

/-- There is a normal form just when no rule is unsuited. -/
theorem exists_normalForm_iff :
    (∃ h, g.normalForm.result = .ok h) ↔ ∀ rule ∈ g.rules, ¬ g.Unsuited rule := by
  constructor
  · rintro ⟨h, hh⟩ rule hrule hunsuited
    obtain ⟨first, hfirst⟩ := exists_find?_unsuited.2 ⟨rule, hrule, hunsuited⟩
    cases hh.symm.trans (normalForm_eq_error_iff.2 ⟨first, hfirst, rfl⟩)
  · intro hall
    cases hresult : g.normalForm.result with
    | ok h => exact ⟨h, rfl⟩
    | error e =>
      obtain ⟨first, hfirst, -⟩ := normalForm_eq_error_iff.1 hresult
      obtain ⟨rule, hrule, hunsuited⟩ := exists_find?_unsuited.1 ⟨first, hfirst⟩
      exact absurd hunsuited (hall rule hrule)

/-- **What the last stage refuses**: it fails just if a rule is unsuited, whatever the other rules are,
and blames the first such rule.  What it makes is never refused, and no limit plays a part. -/
theorem normalForm_fails_iff (g : Grammar) (limit : Nat) :
    ((∃ e, (Stage.normalForm.run limit g).result = .error e) ↔ ∃ rule ∈ g.rules, g.Unsuited rule) ∧
      (∀ e, (Stage.normalForm.run limit g).result = .error e ↔
        ∃ rule, g.rules.find? (g.Unsuited ·) = some rule ∧ e = .unsuited .normalForm rule) ∧
      (∀ stage defect, (Stage.normalForm.run limit g).result ≠ .error (.refused stage defect)) ∧
      ∀ stage n, (Stage.normalForm.run limit g).result ≠ .error (.unsettled stage n) := by
  have hblamed : ∀ e, (Stage.normalForm.run limit g).result = .error e ↔
      ∃ rule, g.rules.find? (g.Unsuited ·) = some rule ∧ e = .unsuited .normalForm rule :=
    fun e => normalForm_eq_error_iff
  refine ⟨?_, hblamed, fun stage defect he => ?_, fun stage n he => ?_⟩
  · rw [← exists_find?_unsuited]
    constructor
    · rintro ⟨e, he⟩
      obtain ⟨rule, hfind, -⟩ := (hblamed e).1 he
      exact ⟨rule, hfind⟩
    · rintro ⟨rule, hfind⟩
      exact ⟨_, (hblamed _).2 ⟨rule, hfind, rfl⟩⟩
  · obtain ⟨rule, -, hunsuited⟩ := (hblamed _).1 he
    cases hunsuited
  · obtain ⟨rule, -, hunsuited⟩ := (hblamed _).1 he
    cases hunsuited

/-- A grammar with a rule for a terminal. -/
def mislabelled : Grammar where
  start := ⟨"T"⟩
  nonterminals := [⟨"T"⟩]
  terminals := [⟨"e"⟩, ⟨"f"⟩]
  rules := [.ofHead ⟨"e"⟩ [⟨"f"⟩, ⟨"f"⟩], .ofHead ⟨"T"⟩ [⟨"T"⟩, ⟨"f"⟩, ⟨"f"⟩]]
  nodup_nonterminals := by decide
  nodup_terminals := by decide
  wellFormed := defect?_eq_none_iff.1 (by decide)

-- the terminal with a rule becomes the helper for the pair
example : mislabelled.normalForm.result.toOption.map Grammar.rules = some
    [.ofHead ⟨"e"⟩ [.ofNumber 0, .ofNumber 0], .ofHead (.ofNumber 0) [⟨"f"⟩],
      .ofHead ⟨"T"⟩ [⟨"T"⟩, ⟨"e"⟩]] := by decide_cbv

end Grammar

end NormalGrammar
