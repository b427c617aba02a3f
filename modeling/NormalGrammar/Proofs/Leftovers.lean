import NormalGrammar.Proofs.KeptParts

/-!
# What is out of reach in the end

Symbols out of reach are dropped before those that derive no word.  The rules of the latter go with
them, and what could be reached through these rules only is left over: it is out of reach, and nothing
drops it any more (`leftover_not_allReachable`).

* What is reachable before the last stage is reachable after it (`IsNormalFormOf.isReachable`), and so
  are the new helpers of reachable rules.
* What is not reachable before can become so in one way only: as a nonterminal with a single rule that
  is used as a helper (`IsNormalFormOf.isReachable_iff`).
* So everything is within reach in the end just when this holds of the grammar before the last stage,
  up to such helpers (`normalize_allReachable_iff`).
-/

namespace NormalGrammar

open Grammar Workshop

variable {g h p n : Grammar} {w : Workshop} {k : Helper} {x : Symbol} {right xs ys : List Symbol}
  {limit : Nat}

/-- A symbol stands in for a part of a rule, if it is found behind the right side of a rule for a
symbol that was reachable before. -/
def StandsIn (w : Workshop) (g h : Grammar) (x : Symbol) : Prop :=
  ∃ y, g.IsReachable y ∧ ∃ rule ∈ h.rulesOf y, Within w.known rule.right x

/-- A symbol that was reachable, or a helper for such symbols: it can only have come to be reachable
by being put in the place of what it stands for. -/
inductive Supported (w : Workshop) (g : Grammar) : Symbol → Prop
  | reachable {x : Symbol} : g.IsReachable x → Supported w g x
  | helper {k : Helper} : k ∈ w.known → (∀ y ∈ k.pattern, Supported w g y) →
      Supported w g k.symbol

namespace IsNormalFormOf

/-! ## From a grammar to its normal form -/

theorem ne_epsilon_of_mem_pattern (n : IsNormalFormOf w g h) (hk : k ∈ w.known)
    (hx : x ∈ k.pattern) : x ≠ Symbol.epsilon := by
  have hshort := n.normal_of_short (n.valid.known_short k hk)
  rcases hshort with ⟨a, ha, hp⟩ | ⟨y, hy, z, hz, hp⟩
  · rw [hp, List.mem_singleton] at hx
    exact hx ▸ ne_epsilon_of_mem_terminals ha
  · rw [hp, List.mem_pair] at hx
    rcases hx with rfl | rfl
    · exact ne_epsilon_of_mem_nonterminals hy
    · exact ne_epsilon_of_mem_nonterminals hz

theorem isReachable_of_within (n : IsNormalFormOf w g h) (hxs : ∀ x ∈ xs, h.IsReachable x)
    (hx : Within w.known xs x) : h.IsReachable x := by
  induction hx with
  | mem hx => exact hxs _ hx
  | @helper k x hk _ hx ih =>
    have hrule := ofHead_mem_rulesOf.2 (n.rule_mem k hk)
    exact .step ih hrule hx (n.ne_epsilon_of_mem_pattern hk hx)

theorem isReachable_right (n : IsNormalFormOf w g h) (hcf : g.isContextFree = true)
    (hx : h.IsReachable x) {rule : Rule} (hrule : rule ∈ h.rulesOf x) :
    ∀ y ∈ rule.right, h.IsReachable y := by
  intro y hy
  refine hx.step hrule hy ?_
  have hmem := (mem_rulesOf.1 hrule).1
  exact ne_epsilon_of_mem_right hmem ((n.allNormal hcf).noEmptyRules rule hmem) hy

/-- **What was reachable still is**, though perhaps through helpers. -/
theorem isReachable (n : IsNormalFormOf w g h) (hcf : g.isContextFree = true)
    (hx : g.IsReachable x) : h.IsReachable x := by
  induction hx with
  | start =>
    rw [← n.start_eq]
    exact .start
  | @step x y rule _ hrule hy hε ih =>
    obtain ⟨hmem, hleft⟩ := mem_rulesOf_iff_left.1 hrule
    obtain ⟨right, hright, hfolds⟩ := n.exists_right rule hmem
    have hrule' : ⟨rule.left, right⟩ ∈ h.rulesOf x := mem_rulesOf_iff_left.2 ⟨hright, hleft⟩
    exact n.isReachable_of_within (n.isReachable_right hcf ih hrule') (hfolds.within (.mem hy))

/-! ## And back -/

theorem supported_of_folds (hxs : ∀ x ∈ xs, Supported w g x) (f : Folds w.known xs ys) :
    ∀ y ∈ ys, Supported w g y := by
  induction f with
  | refl => exact hxs
  | @step front back k hk _ ih =>
    intro y hy
    rcases List.mem_append.1 hy with hy | hy
    · exact ih y (List.mem_append_left _ hy)
    · rcases List.mem_cons.1 hy with rfl | hy
      · exact .helper hk fun z hz =>
          ih z (List.mem_append_right _ (List.mem_append_left _ hz))
      · exact ih y (List.mem_append_right _ (List.mem_append_right _ hy))

/-- Only what is supported is reachable. -/
theorem supported (n : IsNormalFormOf w g h) (hε : g.NoEmptyRules) (hx : h.IsReachable x) :
    Supported w g x := by
  induction hx with
  | start =>
    rw [n.start_eq]
    exact .reachable .start
  | @step x y r _ hr hy _ ih =>
    cases ih with
    | reachable hx =>
      obtain ⟨hmem, hleft⟩ := mem_rulesOf_iff_left.1 hr
      rcases n.origin r hmem with ⟨rule, hrule, hl, hfolds, -⟩ | ⟨k, hk, rfl⟩
      · have hrule' : rule ∈ g.rulesOf x := mem_rulesOf_iff_left.2 ⟨hrule, hl ▸ hleft⟩
        refine supported_of_folds (fun z hz => .reachable (hx.step hrule' hz ?_)) hfolds y hy
        exact ne_epsilon_of_mem_right hrule (hε rule hrule) hz
      · obtain rfl := List.singleton_inj.1 hleft
        have hfresh := n.valid.minted_fresh k hk
        exact absurd hx.declared (by simpa using hfresh)
    | @helper k hk hpattern =>
      rw [n.rule_unique k hk r hr] at hy
      exact hpattern y hy

theorem isReachable_terminal_iff (n : IsNormalFormOf w g h) (hcf : g.isContextFree = true)
    (hε : g.NoEmptyRules) (hx : x ∈ g.terminals) : h.IsReachable x ↔ g.IsReachable x := by
  refine ⟨fun hreach => ?_, n.isReachable hcf⟩
  cases n.supported hε hreach with
  | reachable hx => exact hx
  | @helper k hk _ =>
    exact absurd (n.terminals_eq ▸ hx) (not_mem_terminals (n.symbol_mem hk))

/-- **The reachable symbols** are those that were reachable, and those that stand in for a part of
a rule. -/
theorem isReachable_iff (n : IsNormalFormOf w g h) (hcf : g.isContextFree = true)
    (hε : g.NoEmptyRules) : h.IsReachable x ↔ g.IsReachable x ∨ StandsIn w g h x := by
  constructor
  · intro hx
    induction hx with
    | start =>
      rw [n.start_eq]
      exact .inl .start
    | @step x y rule hx hrule hy _ ih =>
      -- Unless it was reachable, `x` stands in for the right side of its only rule.
      rcases ih with hreach | ⟨u, hu, r, hr, hwithin⟩
      · exact .inr ⟨x, hreach, rule, hrule, .mem hy⟩
      · cases n.supported hε hx with
        | reachable hreach => exact .inr ⟨x, hreach, rule, hrule, .mem hy⟩
        | @helper k hk _ =>
          rw [n.rule_unique k hk rule hrule] at hy
          exact .inr ⟨u, hu, r, hr, .helper hk hwithin hy⟩
  · rintro (hx | ⟨y, hy, rule, hrule, hwithin⟩)
    · exact n.isReachable hcf hx
    · exact n.isReachable_of_within (n.isReachable_right hcf (n.isReachable hcf hy) hrule) hwithin

/-- A new helper is reachable if the declared nonterminals are: it was made for a rule of one. -/
theorem isReachable_minted (n : IsNormalFormOf w g h) (hcf : g.isContextFree = true)
    (hall : ∀ x ∈ g.nonterminals, h.IsReachable x) (hk : k ∈ w.minted) :
    h.IsReachable k.symbol := by
  obtain ⟨rule, hrule, right, hright, hwithin⟩ := n.minted_within k hk
  obtain ⟨x, hx, hleft⟩ := isContextFree_iff.1 hcf rule hrule
  have hmem : ⟨rule.left, right⟩ ∈ h.rulesOf x := mem_rulesOf_iff_left.2 ⟨hright, hleft⟩
  exact n.isReachable_of_within (n.isReachable_right hcf (hall x hx) hmem) hwithin

/-- Everything is reachable just when all terminals were, and all nonterminals were or stand in. -/
theorem allReachable_iff (n : IsNormalFormOf w g h) (hcf : g.isContextFree = true)
    (hε : g.NoEmptyRules) : h.AllReachable ↔
      (∀ a ∈ g.terminals, g.IsReachable a) ∧
        ∀ x ∈ g.nonterminals, g.IsReachable x ∨ StandsIn w g h x := by
  constructor
  · intro hall
    refine ⟨fun a ha => ?_, fun x hx => ?_⟩
    · refine (n.isReachable_terminal_iff hcf hε ha).1 (hall a ?_)
      exact List.mem_append_right _ (n.terminals_eq ▸ ha)
    · refine (n.isReachable_iff hcf hε).1 (hall x ?_)
      exact List.mem_append_left _ ((n.mem_nonterminals x).2 (.inl hx))
  · rintro ⟨hterminals, hnonterminals⟩ x hx
    have hdeclared : ∀ x ∈ g.nonterminals, h.IsReachable x :=
      fun x hx => (n.isReachable_iff hcf hε).2 (hnonterminals x hx)
    rcases List.mem_append.1 hx with hx | hx
    · rcases (n.mem_nonterminals x).1 hx with hx | ⟨k, hk, rfl⟩
      · exact hdeclared x hx
      · exact n.isReachable_minted hcf hdeclared hk
    · exact n.isReachable hcf (hterminals x (n.terminals_eq ▸ hx))

end IsNormalFormOf

/-! ## All stages -/

/-- Nothing is left over if all nonterminals that the third stage leaves derive a word. -/
theorem Steps.allReachable_of_allProductive {e u r : Grammar} (s : Steps limit g e u r p n)
    (hcf : g.isContextFree = true) (hr : r.AllProductive) : n.AllReachable := by
  obtain ⟨-, -, -, hp, -⟩ := s.guarantees hcf
  obtain ⟨hrcf, hε, hpcf, w, hnf⟩ := s.parts hcf
  obtain ⟨hstart, hnp, htp, hrules⟩ := productive_eq_ok hrcf hε s.productive
  have hall : ∀ x, r.IsReachable x → p.IsReachable x := by
    intro x hx
    induction hx with
    | start =>
      rw [← hstart]
      exact .start
    | @step x y rule _ hrule hy hne ih =>
      obtain ⟨hmem, hleft⟩ := mem_rulesOf_iff_left.1 hrule
      -- the rule stays, as each symbol of its right side derives a word
      have hstays : rule ∈ p.rules := (hrules rule).2 ⟨hmem, fun z hz =>
        (right_declared hmem (hε rule hmem) hz).elim (hr z) fun ha => ⟨[z], derives_terminal ha⟩⟩
      exact .step ih (mem_rulesOf_iff_left.2 ⟨hstays, hleft⟩) hy hne
  have hreach := allReachable_reachable s.reachable
  refine (hnf.allReachable_iff hpcf (hp.noEmptyRules (by decide))).2 ⟨fun a ha => ?_, fun x hx => ?_⟩
  · exact hall a (hreach a (List.mem_append_right _ (htp ▸ ha)))
  · exact .inl (hall x (hreach x (List.mem_append_left _ ((hnp x).1 hx).1)))

/-- **What is left over**: everything that the last grammar declares is reachable just when, in the
grammar that the fourth stage leaves, every terminal is, and every nonterminal is or stands in for a
part of a rule. -/
theorem normalize_allReachable_iff (hcf : g.isContextFree = true)
    (hn : g.normalize limit = .ok n) :
    ∃ p w, (g.normalization limit).finished.lookup .productivity = some p ∧
      IsNormalFormOf w p n ∧
      (n.AllReachable ↔ (∀ a ∈ p.terminals, p.IsReachable a) ∧
        ∀ x ∈ p.nonterminals, p.IsReachable x ∨ StandsIn w p n x) := by
  obtain ⟨e, u, r, p, s, hfinished⟩ := normalize_eq_ok hcf hn
  obtain ⟨-, -, -, hp, -⟩ := s.guarantees hcf
  obtain ⟨-, -, hpcf, w, hnf⟩ := s.parts hcf
  refine ⟨p, w, ?_, hnf, hnf.allReachable_iff hpcf (hp.noEmptyRules (by decide))⟩
  rw [hfinished]
  rfl

/-- `B` derives no word, so that `H` comes to be out of reach. -/
def rescued : Grammar where
  start := ⟨"S"⟩
  nonterminals := [⟨"S"⟩, ⟨"F"⟩, ⟨"H"⟩, ⟨"B"⟩]
  terminals := [⟨"f"⟩]
  rules := [.ofHead ⟨"S"⟩ [⟨"F"⟩, ⟨"F"⟩, ⟨"F"⟩], .ofHead ⟨"S"⟩ [⟨"H"⟩, ⟨"B"⟩],
    .ofHead ⟨"H"⟩ [⟨"F"⟩, ⟨"F"⟩], .ofHead ⟨"B"⟩ [⟨"B"⟩, ⟨"F"⟩], .ofHead ⟨"F"⟩ [⟨"f"⟩]]
  nodup_nonterminals := by decide
  nodup_terminals := by decide
  wellFormed := defect?_eq_none_iff.1 (by decide)

/-- What the fourth stage leaves of `rescued`. -/
def rescuedPart : Grammar where
  start := ⟨"S"⟩
  nonterminals := [⟨"S"⟩, ⟨"F"⟩, ⟨"H"⟩]
  terminals := [⟨"f"⟩]
  rules := [.ofHead ⟨"S"⟩ [⟨"F"⟩, ⟨"F"⟩, ⟨"F"⟩], .ofHead ⟨"H"⟩ [⟨"F"⟩, ⟨"F"⟩],
    .ofHead ⟨"F"⟩ [⟨"f"⟩]]
  nodup_nonterminals := by decide
  nodup_terminals := by decide
  wellFormed := defect?_eq_none_iff.1 (by decide)

/-- What `rescued` becomes: `H` stands for `F F` in the rule of `S`. -/
def rescuedNormal : Grammar where
  start := ⟨"S"⟩
  nonterminals := [⟨"S"⟩, ⟨"F"⟩, ⟨"H"⟩]
  terminals := [⟨"f"⟩]
  rules := [.ofHead ⟨"S"⟩ [⟨"F"⟩, ⟨"H"⟩], .ofHead ⟨"H"⟩ [⟨"F"⟩, ⟨"F"⟩], .ofHead ⟨"F"⟩ [⟨"f"⟩]]
  nodup_nonterminals := by decide
  nodup_terminals := by decide
  wellFormed := defect?_eq_none_iff.1 (by decide)

/-- Nothing of `rescued` is left over: after the fourth stage only `H` is out of reach, and it stands
in for a part of a rule. -/
theorem rescued_allReachable : rescued.isContextFree = true ∧
    rescued.normalize 10 = .ok rescuedNormal ∧ ¬ rescuedPart.IsReachable ⟨"H"⟩ ∧
    ∃ w, (rescued.normalization 10).finished.lookup .productivity = some rescuedPart ∧
      IsNormalFormOf w rescuedPart rescuedNormal ∧
      ((∀ a ∈ rescuedPart.terminals, rescuedPart.IsReachable a) ∧
        ∀ x ∈ rescuedPart.nonterminals,
          rescuedPart.IsReachable x ∨ StandsIn w rescuedPart rescuedNormal x) ∧
      rescuedNormal.AllReachable := by
  have hcf : rescued.isContextFree = true := by decide
  have hn : rescued.normalize 10 = .ok rescuedNormal := by decide_cbv
  have hpart : (rescued.normalization 10).finished.lookup .productivity = some rescuedPart := by
    decide_cbv
  have hterminals : ∀ a ∈ rescuedPart.terminals, rescuedPart.IsReachable a := by decide_cbv
  have hothers : ∀ x ∈ rescuedPart.nonterminals, x ≠ ⟨"H"⟩ → rescuedPart.IsReachable x := by
    decide_cbv
  obtain ⟨p, w, hp, hnf, hiff⟩ := normalize_allReachable_iff hcf hn
  obtain rfl : rescuedPart = p := Option.some.inj (hpart.symm.trans hp)
  have hH : StandsIn w rescuedPart rescuedNormal ⟨"H"⟩ :=
    ⟨⟨"S"⟩, .start, .ofHead ⟨"S"⟩ [⟨"F"⟩, ⟨"H"⟩], by decide, .mem (by decide)⟩
  have hcondition : (∀ a ∈ rescuedPart.terminals, rescuedPart.IsReachable a) ∧
      ∀ x ∈ rescuedPart.nonterminals,
        rescuedPart.IsReachable x ∨ StandsIn w rescuedPart rescuedNormal x := by
    refine ⟨hterminals, fun x hx => ?_⟩
    by_cases he : x = ⟨"H"⟩
    · exact .inr (he ▸ hH)
    · exact .inl (hothers x hx he)
  exact ⟨hcf, hn, by decide_cbv, w, hpart, hnf, hcondition, hiff.2 hcondition⟩

/-- `B` derives no word, and `A` is reachable only by a rule that mentions `B`. -/
def leftover : Grammar where
  start := ⟨"S"⟩
  nonterminals := [⟨"S"⟩, ⟨"A"⟩, ⟨"B"⟩]
  terminals := [⟨"b"⟩, ⟨"a"⟩]
  rules := [.ofHead ⟨"S"⟩ [⟨"A"⟩, ⟨"B"⟩], .ofHead ⟨"S"⟩ [⟨"a"⟩], .ofHead ⟨"A"⟩ [⟨"a"⟩],
    .ofHead ⟨"B"⟩ [⟨"B"⟩, ⟨"b"⟩]]
  nodup_nonterminals := by decide
  nodup_terminals := by decide
  wellFormed := defect?_eq_none_iff.1 (by decide)

/-- What `leftover` becomes: `B` is gone, but not `A`, nor the terminal `b`. -/
def leftoverNormal : Grammar where
  start := ⟨"S"⟩
  nonterminals := [⟨"S"⟩, ⟨"A"⟩]
  terminals := [⟨"b"⟩, ⟨"a"⟩]
  rules := [.ofHead ⟨"S"⟩ [⟨"a"⟩], .ofHead ⟨"A"⟩ [⟨"a"⟩]]
  nodup_nonterminals := by decide
  nodup_terminals := by decide
  wellFormed := defect?_eq_none_iff.1 (by decide)

/-- **Something may be left over**: `A` cannot be reached any more, nor can `b`. -/
theorem leftover_not_allReachable : leftover.isContextFree = true ∧
    leftover.normalize 10 = .ok leftoverNormal ∧ ¬ leftoverNormal.AllReachable := by
  refine ⟨by decide, by decide_cbv, fun hall => ?_⟩
  have hA : leftoverNormal.IsReachable ⟨"A"⟩ := hall ⟨"A"⟩ (by decide)
  have hmem : (⟨"A"⟩ : Symbol) ∈ ([⟨"S"⟩, ⟨"a"⟩] : List Symbol) :=
    hA.mem_of_closed (by decide) (by decide)
  exact absurd hmem (by decide)

end NormalGrammar
