import NormalGrammar.Proofs.Heights
import NormalGrammar.Proofs.Outcomes
import NormalGrammar.Sampling.Sentence

/-!
# What sampling comes to

Whatever words are drawn, a sample ends: with a word that the start symbol derives, or at a symbol that
derives none.

* `Sampler.Ends` says what a sampler returns and how it fails, for every source of words.  The
  samplers of sentences are described with it, as they are put together.
* Below the depth limit the heights go down, so the bound that comes with them is never met
  (`expand_zero`).
* A failure names a symbol that is reachable and derives no word (`ends_sampleWord`).  In normal form
  there is none, so sampling succeeds there (`normalize_sample`).
-/

namespace NormalGrammar

open Grammar

namespace Sampler

variable {α β : Type} {P : α → Prop} {Q : β → Prop} {E : SampleError → Prop} {m m' : Sampler α}
  {f f' : α → Sampler β} {g : Grammar} {expand : Symbol → Sampler (List Symbol)} {xs : List Symbol}

/-! ## How samplers end -/

/-- What a sampler returns, or how it fails, and the words that are left. -/
def outcome (m : Sampler α) (source : WordSource) : Except SampleError α × WordSource :=
  m.run source

theorem outcome_bind (source : WordSource) : outcome (m >>= f) source =
    match outcome m source with
    | (.ok a, later) => outcome (f a) later
    | (.error e, later) => (.error e, later) := by
  unfold outcome
  simp only [bind, ExceptT.bind, ExceptT.mk, ExceptT.run, StateT.bind]
  generalize (m source : Except SampleError α × WordSource) = t
  rcases t with ⟨_ | a, later⟩
  · rfl
  · rfl

/-- Whatever it draws, a sampler returns a value with one property, or fails with an error with
another. -/
def Ends (m : Sampler α) (P : α → Prop) (E : SampleError → Prop) : Prop :=
  ∀ source, match (outcome m source).1 with
    | .ok a => P a
    | .error e => E e

theorem Ends.pure {a : α} (h : P a) : Ends (Pure.pure a) P E := fun _ => h

theorem Ends.throw {e : SampleError} (h : E e) : Ends (throw e) P E := fun _ => h

/-- Two samplers in a row end as the second does on what the first returned, or fail as the first
did. -/
theorem Ends.bind (hm : Ends m P E) (hf : ∀ a, P a → Ends (f a) Q E) : Ends (m >>= f) Q E := by
  intro source
  have hfirst := hm source
  rw [outcome_bind]
  generalize outcome m source = t at hfirst ⊢
  rcases t with ⟨e | a, later⟩
  · exact hfirst
  · exact hf a hfirst later

theorem Ends.mono {P' : α → Prop} {E' : SampleError → Prop} (hm : Ends m P E)
    (hP : ∀ a, P a → P' a) (hE : ∀ e, E e → E' e) : Ends m P' E' := by
  intro source
  have h := hm source
  generalize outcome m source = t at h ⊢
  rcases t with ⟨e | a, later⟩
  · exact hE e h
  · exact hP a h

theorem Ends.exists_ok (hm : Ends m P fun _ => False) (source : WordSource) :
    ∃ a, P a ∧ (outcome m source).1 = .ok a := by
  have h := hm source
  generalize outcome m source = t at h ⊢
  rcases t with ⟨e | a, later⟩
  · exact False.elim h
  · exact ⟨a, h, rfl⟩

/-- Two samplers are the same after one that only returns values on which they are. -/
theorem Ends.bind_congr (hm : Ends m P E) (hf : ∀ a, P a → f a = f' a) : m >>= f = m >>= f' := by
  have h : ∀ source, outcome (m >>= f) source = outcome (m >>= f') source := by
    intro source
    have hfirst := hm source
    rw [outcome_bind, outcome_bind]
    generalize outcome m source = t at hfirst ⊢
    rcases t with ⟨e | a, later⟩
    · rfl
    · exact congrArg (outcome · later) (hf a hfirst)
  exact funext h

/-! ## Drawing rules and expanding symbols -/

theorem ends_pick (first : Rule) (others : List Rule) :
    Ends (pick first others) (· ∈ first :: others) E := by
  have hmem : ∀ i : Nat, (first :: others)[i]?.getD first ∈ first :: others := by
    intro i
    cases h : (first :: others)[i]? with
    | none => exact List.mem_cons_self ..
    | some rule => exact List.mem_of_getElem? h
  exact fun source => hmem _

/-- Symbols are expanded to what they derive if each of them is. -/
theorem ends_expandEach (hxs : ∀ x ∈ xs, Ends (expand x) (g.Derives [x]) E) :
    Ends (expandEach expand xs) (g.Derives xs) E := by
  induction xs with
  | nil => exact .pure (derives_nil_iff.2 rfl)
  | cons x xs ih =>
    obtain ⟨hx, hxs⟩ := List.forall_mem_cons.1 hxs
    refine .bind hx fun u du => .bind (ih hxs) fun v dv => .pure ?_
    exact derives_cons_iff.2 ⟨u, v, rfl, du, dv⟩

theorem expandEach_congr {expand' : Symbol → Sampler (List Symbol)}
    (hxs : ∀ x ∈ xs, expand x = expand' x) : expandEach expand xs = expandEach expand' xs := by
  induction xs with
  | nil => rfl
  | cons x xs ih =>
    obtain ⟨hx, hxs⟩ := List.forall_mem_cons.1 hxs
    rw [expandEach, expandEach, hx, ih hxs]

end Sampler

open Sampler

/-- What a failure says of the grammar: a reachable nonterminal has no rules, or it has rules and
derives no word all the same. -/
def SampleError.IsTrueOf (g : Grammar) : SampleError → Prop
  | .noRules x => x ∈ g.nonterminals ∧ g.IsReachable x ∧ g.rulesOf x = []
  | .neverFinishes x =>
    x ∈ g.nonterminals ∧ g.IsReachable x ∧ g.rulesOf x ≠ [] ∧ ¬ g.IsProductive x

namespace Grammar

variable {g : Grammar} {known : Heights} {candidates : Symbol → List Rule} {rule : Rule}
  {expand expand' : Symbol → Sampler (List Symbol)} {x : Symbol} {height : Nat}

/-! ## One symbol -/

theorem expandSymbol_epsilon : g.expandSymbol candidates expand .epsilon = Pure.pure [] := by
  simp [expandSymbol]

theorem expandSymbol_terminal (ha : x ∈ g.terminals) :
    g.expandSymbol candidates expand x = Pure.pure [x] := by
  have hε := ne_epsilon_of_mem_terminals ha
  simp [expandSymbol, hε, ha]

theorem expandSymbol_noRules (hε : x ≠ Symbol.epsilon) (ha : x ∉ g.terminals)
    (hrules : g.rulesOf x = []) : g.expandSymbol candidates expand x = throw (.noRules x) := by
  simp [expandSymbol, hε, ha, hrules]

theorem expandSymbol_neverFinishes (hε : x ≠ Symbol.epsilon) (ha : x ∉ g.terminals)
    (hrules : g.rulesOf x ≠ []) (hnil : candidates x = []) :
    g.expandSymbol candidates expand x = throw (.neverFinishes x) := by
  simp [expandSymbol, hε, ha, hrules, hnil]

theorem expandSymbol_pick (hε : x ≠ Symbol.epsilon) (ha : x ∉ g.terminals) (hrules : g.rulesOf x ≠ [])
    {first : Rule} {others : List Rule} (hcons : candidates x = first :: others) :
    g.expandSymbol candidates expand x =
      pick first others >>= fun rule => expandEach expand rule.right := by
  simp [expandSymbol, hε, ha, hrules, hcons]

/-- A symbol is expanded the same by samplers that expand the right sides of its candidates the
same. -/
theorem expandSymbol_congr
    (h : ∀ rule ∈ candidates x, ∀ y ∈ rule.right, expand y = expand' y) :
    g.expandSymbol candidates expand x = g.expandSymbol candidates expand' x := by
  by_cases hε : x = Symbol.epsilon
  · rw [hε, expandSymbol_epsilon, expandSymbol_epsilon]
  by_cases ha : x ∈ g.terminals
  · rw [expandSymbol_terminal ha, expandSymbol_terminal ha]
  by_cases hrules : g.rulesOf x = []
  · rw [expandSymbol_noRules hε ha hrules, expandSymbol_noRules hε ha hrules]
  cases hcandidates : candidates x with
  | nil =>
    rw [expandSymbol_neverFinishes hε ha hrules hcandidates,
      expandSymbol_neverFinishes hε ha hrules hcandidates]
  | cons first others =>
    rw [expandSymbol_pick hε ha hrules hcandidates, expandSymbol_pick hε ha hrules hcandidates]
    refine (ends_pick (E := fun _ => True) first others).bind_congr fun rule hrule => ?_
    exact expandEach_congr (h rule (hcandidates ▸ hrule))

/-- Where a symbol may occur in a sample: it is the empty word, or reachable. -/
def Occurs (g : Grammar) (x : Symbol) : Prop := x = Symbol.epsilon ∨ g.IsReachable x

theorem Occurs.of_mem_right (hx : g.Occurs x) (hrule : rule ∈ g.rulesOf x) {y : Symbol}
    (hy : y ∈ rule.right) : g.Occurs y := by
  have hreach : g.IsReachable x := hx.resolve_left (ne_epsilon_of_mem_rulesOf hrule)
  by_cases hε : y = Symbol.epsilon
  · exact .inl hε
  · exact .inr (hreach.step hrule hy hε)

/-- Expanding a symbol ends with a word that it derives, or truthfully fails, if the same holds of
the right sides of its candidates, and it has candidates unless it derives no word. -/
theorem ends_expandSymbol (hx : g.Occurs x) (hcandidates : ∀ rule ∈ candidates x, rule ∈ g.rulesOf x)
    (hnone : x ∈ g.nonterminals → g.IsProductive x → candidates x ≠ [])
    (hexpand : ∀ rule ∈ candidates x, ∀ y ∈ rule.right,
      Ends (expand y) (g.Derives [y]) (·.IsTrueOf g)) :
    Ends (g.expandSymbol candidates expand x) (g.Derives [x]) (·.IsTrueOf g) := by
  rcases hx with rfl | hreach
  · rw [expandSymbol_epsilon]
    exact .pure (derives_epsilon_iff.2 rfl)
  by_cases ha : x ∈ g.terminals
  · rw [expandSymbol_terminal ha]
    exact .pure (derives_terminal ha)
  have hn : x ∈ g.nonterminals := (List.mem_append.1 hreach.declared).resolve_right ha
  have hε := ne_epsilon_of_mem_nonterminals hn
  by_cases hrules : g.rulesOf x = []
  · rw [expandSymbol_noRules hε ha hrules]
    exact .throw ⟨hn, hreach, hrules⟩
  cases hcons : candidates x with
  | nil =>
    rw [expandSymbol_neverFinishes hε ha hrules hcons]
    exact .throw ⟨hn, hreach, hrules, fun hproductive => hnone hn hproductive hcons⟩
  | cons first others =>
    rw [expandSymbol_pick hε ha hrules hcons]
    refine .bind (ends_pick first others) fun rule hrule => ?_
    rw [← hcons] at hrule
    refine (ends_expandEach (hexpand rule hrule)).mono (fun w d => ?_) fun _ he => he
    exact d.of_rule (hcandidates rule hrule)

/-! ## Below the depth limit -/

/-- The rules that finish soonest have the height of the symbol. -/
theorem mem_soonestRules_iff : rule ∈ g.soonestRules known x ↔ rule ∈ g.rulesOf x ∧
    ∃ h, known.lookup x = some h ∧ g.heightOfRule? known rule = some h := by
  simp only [soonestRules, List.mem_filter, Bool.and_eq_true, decide_eq_true_eq,
    Option.isSome_iff_exists]
  refine and_congr_right fun _ => ?_
  constructor
  · rintro ⟨⟨h, hx⟩, hr⟩
    exact ⟨h, hx, hr.trans hx⟩
  · rintro ⟨h, hx, hr⟩
    exact ⟨⟨h, hx⟩, hr.trans hx.symm⟩

theorem pos_of_lookup_heights {h : Nat} (hx : g.heights.lookup x = some h) : 0 < h := by
  obtain ⟨rule, -, hr⟩ := backed_heights g x h ⟨h, Nat.le_refl h, hx⟩
  exact Nat.pos_of_ne_zero fun hzero => not_ruleAtMost_zero (hzero ▸ hr)

/-- The height of a symbol is bounded, if it has one. -/
def FinishesWithin (g : Grammar) (height : Nat) (x : Symbol) : Prop :=
  ∀ k, g.heights.lookup x = some k → k ≤ height

theorem finishesWithin_lookup (g : Grammar) (x : Symbol) :
    g.FinishesWithin ((g.heights.lookup x).getD 0) x := by
  intro k hk
  simp [hk]

theorem FinishesWithin.lookup_eq_none (hx : g.FinishesWithin 0 x) : g.heights.lookup x = none := by
  cases hk : g.heights.lookup x with
  | none => rfl
  | some k =>
    have hpos := pos_of_lookup_heights hk
    have hzero := hx k hk
    omega

/-- What is on the right side of a rule that finishes soonest is less high. -/
theorem FinishesWithin.of_soonestRules (hcf : g.isContextFree = true)
    (hx : g.FinishesWithin (height + 1) x) (hrule : rule ∈ g.soonestRules g.heights x) {y : Symbol}
    (hy : y ∈ rule.right) : g.FinishesWithin height y := by
  obtain ⟨-, h, hh, hr⟩ := mem_soonestRules_iff.1 hrule
  intro j hj
  obtain ⟨r, hmem, -⟩ := backed_heights g y j ⟨j, Nat.le_refl j, hj⟩
  obtain ⟨k, hlt, hk⟩ :=
    exists_lt_of_heightOfRule? hr hy (mem_nonterminals_of_mem_rulesOf hcf hmem)
  obtain rfl := Option.some.inj (hk.symm.trans hj)
  have := hx h hh
  omega

/-- A symbol without a height has no rules that finish. -/
theorem soonestRules_eq_nil (hx : known.lookup x = none) : g.soonestRules known x = [] := by
  simp [soonestRules, hx]

/-- Any bound on the height of a symbol does the same as its height: the bound is never met. -/
theorem FinishesWithin.finish_eq (hcf : g.isContextFree = true) (hx : g.FinishesWithin height x) :
    g.finish g.heights height x = g.finish g.heights ((g.heights.lookup x).getD 0) x := by
  induction height using Nat.strongRecOn generalizing x with
  | ind height ih =>
    cases height with
    | zero => rw [hx.lookup_eq_none]; rfl
    | succ height =>
      cases hk : g.heights.lookup x with
      | none =>
        simp only [Option.getD_none, finish, expandSymbol, soonestRules_eq_nil hk]
      | some k =>
        obtain ⟨k, rfl⟩ := Nat.exists_eq_succ_of_ne_zero (Nat.ne_of_gt (pos_of_lookup_heights hk))
        have hle : k + 1 ≤ height + 1 := hx _ hk
        have hk' : g.FinishesWithin (k + 1) x := by
          intro j hj
          exact Nat.le_of_eq (Option.some.inj (hj.symm.trans hk))
        refine expandSymbol_congr fun rule hrule y hy => ?_
        rw [ih height (by omega) (hx.of_soonestRules hcf hrule hy),
          ih k (by omega) (hk'.of_soonestRules hcf hrule hy)]

/-- **Below the depth limit** a symbol is expanded by rules that finish soonest, and so are the symbols
on their right sides. -/
theorem expand_zero (hcf : g.isContextFree = true) (x : Symbol) :
    g.expand g.heights 0 x =
      g.expandSymbol (g.soonestRules g.heights) (g.expand g.heights 0) x := by
  show g.finish g.heights ((g.heights.lookup x).getD 0) x = _
  cases hk : g.heights.lookup x with
  | none => simp only [Option.getD_none, finish, expandSymbol, soonestRules_eq_nil hk]
  | some k =>
    obtain ⟨k, rfl⟩ := Nat.exists_eq_succ_of_ne_zero (Nat.ne_of_gt (pos_of_lookup_heights hk))
    have hx := finishesWithin_lookup g x
    rw [hk] at hx
    exact expandSymbol_congr fun rule hrule y hy => (hx.of_soonestRules hcf hrule hy).finish_eq hcf

theorem ends_finish (hcf : g.isContextFree = true) (hx : g.Occurs x)
    (hheight : g.FinishesWithin height x) :
    Ends (g.finish g.heights height x) (g.Derives [x]) (·.IsTrueOf g) := by
  induction height generalizing x with
  | zero =>
    refine ends_expandSymbol hx nofun (fun hn hproductive => ?_) nofun
    obtain ⟨k, hk⟩ := (exists_lookup_heights_iff hn).2 hproductive
    cases hk.symm.trans hheight.lookup_eq_none
  | succ height ih =>
    refine ends_expandSymbol hx (fun rule hrule => (mem_soonestRules_iff.1 hrule).1) ?_ ?_
    · intro hn hproductive
      obtain ⟨k, hk⟩ := (exists_lookup_heights_iff hn).2 hproductive
      obtain ⟨rule, hrule, hr⟩ := exists_heightOfRule?_eq hn hk
      exact List.ne_nil_of_mem (mem_soonestRules_iff.2 ⟨hrule, k, hk, hr⟩)
    · intro rule hrule y hy
      exact ih (hx.of_mem_right (mem_soonestRules_iff.1 hrule).1 hy)
        (hheight.of_soonestRules hcf hrule hy)

/-! ## Whole samples -/

theorem ends_expand (hcf : g.isContextFree = true) (hx : g.Occurs x) (depth : Nat) :
    Ends (g.expand g.heights depth x) (g.Derives [x]) (·.IsTrueOf g) := by
  induction depth generalizing x with
  | zero => exact ends_finish hcf hx (finishesWithin_lookup g x)
  | succ depth ih =>
    exact ends_expandSymbol hx (fun _ hrule => hrule)
      (fun hn hproductive => hproductive.rulesOf_ne_nil hn)
      fun rule hrule y hy => ih (hx.of_mem_right hrule hy)

/-- **How samples end**: with a word of the grammar, or at a reachable nonterminal that derives none. -/
theorem ends_sampleWord (hcf : g.isContextFree = true) (depth : Nat) :
    Ends (g.sampleWord depth) g.Generates (·.IsTrueOf g) :=
  ends_expand hcf (.inr .start) depth

theorem ends_sample (hcf : g.isContextFree = true) (depth : Nat) : Ends (g.sample depth)
    (fun s => ∃ w, g.Generates w ∧ s = String.join (w.map Symbol.name)) (·.IsTrueOf g) :=
  .bind (ends_sampleWord hcf depth) fun w hw => .pure ⟨w, hw, rfl⟩

/-- If every reachable nonterminal derives a word, no failure is true of the grammar. -/
theorem not_isTrueOf_of_isProductive (hg : ∀ x ∈ g.nonterminals, g.IsReachable x → g.IsProductive x)
    (e : SampleError) : ¬ e.IsTrueOf g := by
  cases e with
  | noRules x =>
    rintro ⟨hn, hreach, hrules⟩
    exact (hg x hn hreach).rulesOf_ne_nil hn hrules
  | neverFinishes x =>
    rintro ⟨hn, hreach, -, hnot⟩
    exact hnot (hg x hn hreach)

theorem AllProductive.not_isTrueOf (hg : g.AllProductive) (e : SampleError) : ¬ e.IsTrueOf g :=
  not_isTrueOf_of_isProductive (fun x hx _ => hg x hx) e

end Grammar

/-- **Sampling a normal form always succeeds**: whatever words are drawn and at any depth, what comes
out is a word of the grammar at the beginning, and not the empty one. -/
theorem normalize_sample {g n : Grammar} {limit : Nat} (hcf : g.isContextFree = true)
    (hn : g.normalize limit = .ok n) (depth : Nat) (source : WordSource) :
    ∃ w, w ≠ [] ∧ g.Generates w ∧
      (n.sampleFrom depth source).1 = .ok (String.join (w.map Symbol.name)) := by
  rcases normalization_cases hcf limit with ⟨m, hm, hg, hwords⟩ | ⟨_, _, _, he, -⟩
  · obtain rfl := Except.ok.inj (hm.symm.trans hn)
    have hall := hg.allProductive (by decide)
    have hends : Ends (m.sample depth)
        (fun s => ∃ w, w ≠ [] ∧ g.Generates w ∧ s = String.join (w.map Symbol.name))
        fun _ => False := by
      refine .bind ((ends_sampleWord hg.contextFree depth).mono (fun _ hw => hw) fun e he =>
        hall.not_isTrueOf e he) fun w hw => .pure ?_
      obtain ⟨hgen, hne⟩ := (hwords w).1 hw
      exact ⟨w, hne, hgen, rfl⟩
    obtain ⟨s, ⟨w, hne, hgen, rfl⟩, hs⟩ := hends.exists_ok source
    exact ⟨w, hne, hgen, hs⟩
  · cases he.symm.trans hn

/-- From the normal form of `balanced`, words `aⁿbⁿ` are sampled. -/
theorem balanced_normalize_sample : balanced.isContextFree = true ∧
    ∃ n, balanced.normalize 10 = .ok n ∧ ∀ depth source, ∃ w, w ≠ [] ∧ balanced.Generates w ∧
      (n.sampleFrom depth source).1 = .ok (String.join (w.map Symbol.name)) := by
  have hcf : balanced.isContextFree = true := by decide
  obtain ⟨n, hn⟩ : ∃ n, balanced.normalize 10 = .ok n := exists_eq_ok_of_isSome (by decide_cbv)
  exact ⟨hcf, n, hn, normalize_sample hcf hn⟩

end NormalGrammar
