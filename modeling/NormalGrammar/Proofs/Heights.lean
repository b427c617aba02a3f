import Mathlib.Logic.Function.Iterate
import NormalGrammar.Proofs.DerivationHeights
import NormalGrammar.Sampling.Height

/-!
# Which symbols finish, and how soon

Heights are lowered on the spot, in the order of the rules, so that on the way they may be larger than
they have to be.  In the end they are the least heights of derivations (`heights_are_least`).

* What one rule does is said once (`atMost_lower_iff`): its head is known to have a height of at most
  `b` if it was so before, or if the right side is now known to have one that is smaller than `b`.
* A height that is known is that of a derivation, or larger (`Backed.exists_le`).
* Each pass settles one height more (`Covers.heightPass`): whatever the order of the rules, after `n`
  passes nothing that is derived within height `n` is known to be higher than that.
* No symbol needs a height larger than the number of rules, so as many passes are enough, and one more
  changes nothing (`heightPass_heights`).
-/

namespace NormalGrammar

/-! ## Single heights -/

namespace Heights

variable {known : Heights} {x y : Symbol} {a b h : Nat}

/-- A symbol is known to have a height of at most `b`. -/
def AtMost (known : Heights) (x : Symbol) (b : Nat) : Prop := ∃ h ≤ b, known.lookup x = some h

theorem AtMost.mono (hx : known.AtMost x a) (hle : a ≤ b) : known.AtMost x b := by
  obtain ⟨h, hh, hx⟩ := hx
  exact ⟨h, Nat.le_trans hh hle, hx⟩

theorem not_atMost_nil : ¬ AtMost [] x b := nofun

/-- A height is a bound, and the least one. -/
theorem atMost_iff_of_lookup (hx : known.lookup x = some h) : known.AtMost x b ↔ h ≤ b := by
  constructor
  · rintro ⟨k, hk, hlookup⟩
    obtain rfl := Option.some.inj (hx.symm.trans hlookup)
    exact hk
  · exact fun hle => ⟨h, hle, hx⟩

theorem all_lt_iff : (known.lookup x).all (h < ·) = true ↔ ¬ known.AtMost x h := by
  cases hx : known.lookup x with
  | none => simp [AtMost, hx]
  | some k => simp [atMost_iff_of_lookup hx]

theorem lookup_filter_ne (known : Heights) (hne : y ≠ x) :
    (known.filter fun entry => entry.1 ≠ x).lookup y = known.lookup y := by
  induction known with
  | nil => rfl
  | cons entry known ih =>
    obtain ⟨z, h⟩ := entry
    by_cases hz : z = x
    · subst hz
      have hbeq : (y == z) = false := by simpa using hne
      rw [List.filter_cons_of_neg (by simp), ih, List.lookup_cons, hbeq]
    · rw [List.filter_cons_of_pos (by simpa using hz), List.lookup_cons, List.lookup_cons, ih]

theorem atMost_assign_self : (known.assign x h).AtMost x b ↔ h ≤ b :=
  atMost_iff_of_lookup (by simp [assign])

theorem atMost_assign_of_ne (hne : y ≠ x) : (known.assign x h).AtMost y b ↔ known.AtMost y b := by
  have hbeq : (y == x) = false := by simpa using hne
  rw [AtMost, assign, List.lookup_cons, hbeq]
  simp only [lookup_filter_ne known hne]
  exact Iff.rfl

end Heights

namespace Grammar

variable {g : Grammar} {known later : Heights} {rule : Rule} {rules : List Rule} {x y : Symbol}
  {xs : List Symbol} {b h : Nat}

/-! ## Heights of right sides and of rules -/

/-- The right side of a rule is known to be of a height smaller than `b`. -/
def RuleAtMost (g : Grammar) (known : Heights) (rule : Rule) (b : Nat) : Prop :=
  ∃ h ≤ b, g.heightOfRule? known rule = some h

theorem heightOfSymbol?_le_iff : (∃ h ≤ b, g.heightOfSymbol? known x = some h) ↔
    (x ∈ g.nonterminals → known.AtMost x b) := by
  by_cases hx : x ∈ g.nonterminals
  · simp [heightOfSymbol?, hx, Heights.AtMost]
  · simp [heightOfSymbol?, hx]

theorem largestHeight?_le_iff : (∃ h ≤ b, g.largestHeight? known xs = some h) ↔
    ∀ x ∈ xs, x ∈ g.nonterminals → known.AtMost x b := by
  induction xs with
  | nil => simp [largestHeight?]
  | cons x xs ih =>
    rw [List.forall_mem_cons, ← ih, ← heightOfSymbol?_le_iff]
    simp only [largestHeight?, Option.bind_eq_bind, Option.bind_eq_some_iff, Option.pure_def,
      Option.some.injEq]
    constructor
    · rintro ⟨_, hle, i, hi, j, hj, rfl⟩
      rw [Nat.max_le] at hle
      exact ⟨⟨i, hle.1, hi⟩, j, hle.2, hj⟩
    · rintro ⟨⟨i, hib, hi⟩, j, hjb, hj⟩
      exact ⟨max i j, Nat.max_le.2 ⟨hib, hjb⟩, i, hi, j, hj, rfl⟩

/-- A rule is one higher than the nonterminals of its right side. -/
theorem ruleAtMost_succ_iff : g.RuleAtMost known rule (b + 1) ↔
    ∀ y ∈ rule.right, y ∈ g.nonterminals → known.AtMost y b := by
  simp only [RuleAtMost, heightOfRule?, ← largestHeight?_le_iff, Option.map_eq_some_iff]
  constructor
  · rintro ⟨_, hle, i, hi, rfl⟩
    exact ⟨i, by omega, hi⟩
  · rintro ⟨i, hle, hi⟩
    exact ⟨i + 1, by omega, i, hi, rfl⟩

theorem not_ruleAtMost_zero : ¬ g.RuleAtMost known rule 0 := by
  rintro ⟨h, hle, hr⟩
  obtain ⟨i, -, rfl⟩ := Option.map_eq_some_iff.1 hr
  omega

theorem exists_lt_of_heightOfRule? (hr : g.heightOfRule? known rule = some h) (hx : x ∈ rule.right)
    (hn : x ∈ g.nonterminals) : ∃ k < h, known.lookup x = some k := by
  have hbound : g.RuleAtMost known rule h := ⟨h, Nat.le_refl h, hr⟩
  cases h with
  | zero => exact absurd hbound not_ruleAtMost_zero
  | succ h =>
    obtain ⟨k, hle, hk⟩ := ruleAtMost_succ_iff.1 hbound x hx hn
    exact ⟨k, Nat.lt_succ_of_le hle, hk⟩

theorem RuleAtMost.mono (hr : g.RuleAtMost known rule b)
    (hlower : ∀ x b, known.AtMost x b → later.AtMost x b) : g.RuleAtMost later rule b := by
  cases b with
  | zero => exact absurd hr not_ruleAtMost_zero
  | succ b =>
    rw [ruleAtMost_succ_iff] at hr ⊢
    exact fun y hy hn => hlower y b (hr y hy hn)

/-! ## One rule -/

/-- A rule that has a head and a height gives it to its head, unless that is low enough. -/
theorem lower_eq (hhead : rule.head? = some x) (hr : g.heightOfRule? known rule = some h) :
    g.lower known rule =
      if (known.lookup x).all (h < ·) then known.assign x h else known := by
  simp only [lower, hhead, hr]

/-- **What one rule does**: its head gets the height of the rule as a bound, and nothing else
changes. -/
theorem atMost_lower_iff : (g.lower known rule).AtMost x b ↔
    known.AtMost x b ∨ rule.head? = some x ∧ g.RuleAtMost known rule b := by
  cases hhead : rule.head? with
  | none => simp [lower, hhead]
  | some z =>
    cases hr : g.heightOfRule? known rule with
    | none => simp [lower, hhead, hr, RuleAtMost]
    | some h =>
      have hbound : g.RuleAtMost known rule b ↔ h ≤ b := by simp [RuleAtMost, hr]
      rw [lower_eq hhead hr, hbound]
      by_cases hz : known.AtMost z h
      · -- the head is low enough already
        have hlow : ¬ (known.lookup z).all (h < ·) = true := fun hall => Heights.all_lt_iff.1 hall hz
        rw [if_neg hlow]
        refine ⟨.inl, fun hor => hor.elim id fun ⟨hx, hle⟩ => ?_⟩
        obtain rfl := Option.some.inj hx
        exact hz.mono hle
      · rw [if_pos (Heights.all_lt_iff.2 hz)]
        by_cases hx : x = z
        · subst hx
          rw [Heights.atMost_assign_self]
          refine ⟨fun hle => .inr ⟨rfl, hle⟩, fun hor => hor.elim (fun hb => ?_) And.right⟩
          by_contra hle
          exact hz (hb.mono (by omega))
        · have hne : ¬ z = x := fun he => hx he.symm
          simp [Heights.atMost_assign_of_ne hx, hne]

theorem lower_eq_self (hrule : ∀ x h, rule.head? = some x → g.heightOfRule? known rule = some h →
    known.AtMost x h) : g.lower known rule = known := by
  cases hhead : rule.head? with
  | none => simp [lower, hhead]
  | some x =>
    cases hr : g.heightOfRule? known rule with
    | none => simp [lower, hhead, hr]
    | some h =>
      rw [lower_eq hhead hr, if_neg]
      exact fun hall => Heights.all_lt_iff.1 hall (hrule x h hhead hr)

/-! ## One pass -/

theorem atMost_foldl_lower (hx : known.AtMost x b) : (rules.foldl g.lower known).AtMost x b :=
  List.foldlRecOn (motive := (Heights.AtMost · x b)) rules g.lower hx
    fun _ hx _ _ => atMost_lower_iff.2 (.inl hx)

/-- Each rule bounds its head, for until its turn comes its own height has not become larger. -/
theorem atMost_foldl_lower_of_mem (hrule : rule ∈ rules) (hhead : rule.head? = some x)
    (hr : g.RuleAtMost known rule b) : (rules.foldl g.lower known).AtMost x b := by
  induction rules generalizing known with
  | nil => cases hrule
  | cons r rules ih =>
    rw [List.foldl_cons]
    rcases List.mem_cons.1 hrule with rfl | hrule
    · exact atMost_foldl_lower (atMost_lower_iff.2 (.inr ⟨hhead, hr⟩))
    · exact ih hrule (hr.mono fun _ _ hx => atMost_lower_iff.2 (.inl hx))

/-- After a pass a symbol is not higher than the rules for it were. -/
theorem atMost_heightPass (hrule : rule ∈ g.rulesOf x) (hr : g.RuleAtMost known rule b) :
    (g.heightPass known).AtMost x b := by
  obtain ⟨hmem, hhead⟩ := mem_rulesOf.1 hrule
  exact atMost_foldl_lower_of_mem hmem hhead hr

/-! ## Heights that are known are not too small -/

/-- Every bound that is known comes from a rule. -/
def Backed (g : Grammar) (known : Heights) : Prop :=
  ∀ x b, known.AtMost x b → ∃ rule ∈ g.rulesOf x, g.RuleAtMost known rule b

theorem Backed.nil (g : Grammar) : Backed g [] := fun _ _ hx => absurd hx Heights.not_atMost_nil

/-- A rule backs the bound of its head, and makes no rule higher. -/
theorem Backed.lower (backed : Backed g known) (hrule : rule ∈ g.rules) :
    Backed g (g.lower known rule) := by
  have hlower : ∀ x b, known.AtMost x b → (g.lower known rule).AtMost x b :=
    fun _ _ hx => atMost_lower_iff.2 (.inl hx)
  intro x b hx
  rcases atMost_lower_iff.1 hx with hx | ⟨hhead, hr⟩
  · obtain ⟨r, hmem, hr⟩ := backed x b hx
    exact ⟨r, hmem, hr.mono hlower⟩
  · exact ⟨rule, mem_rulesOf.2 ⟨hrule, hhead⟩, hr.mono hlower⟩

theorem Backed.heightPass (backed : Backed g known) : Backed g (g.heightPass known) :=
  List.foldlRecOn g.rules g.lower backed fun _ backed _ hrule => backed.lower hrule

theorem Backed.iterate (backed : Backed g known) (n : Nat) : Backed g (g.heightPass^[n] known) :=
  Function.Iterate.rec (Backed g) backed (fun _ backed => backed.heightPass) n

theorem zero_mem_derivationHeights (hrule : rule ∈ g.rules) (hy : y ∈ rule.right)
    (hn : y ∉ g.nonterminals) : 0 ∈ g.derivationHeights y := by
  by_cases hε : y = Symbol.epsilon
  · subst hε
    exact ⟨[], 0, .epsilon .nil⟩
  · have hdeclared := declared_of_mem_right hrule hy hε
    exact ⟨[y], 0, .terminal ((List.mem_append.1 hdeclared).resolve_left hn) .nil⟩

/-- The head of a rule is derived within the height of the rule, if the nonterminals of the right side
are derived within what is known of them. -/
theorem exists_le_of_ruleAtMost (hrule : rule ∈ g.rulesOf x) (hr : g.RuleAtMost known rule (b + 1))
    (hknown : ∀ y, known.AtMost y b → ∃ h ≤ b, h ∈ g.derivationHeights y) :
    ∃ h ≤ b + 1, h ∈ g.derivationHeights x := by
  rw [ruleAtMost_succ_iff] at hr
  have hright : ∀ y ∈ rule.right, ∃ h ≤ b, h ∈ g.derivationHeights y := by
    intro y hy
    by_cases hn : y ∈ g.nonterminals
    · exact hknown y (hr y hy hn)
    · exact ⟨0, Nat.zero_le b, zero_mem_derivationHeights (mem_rulesOf.1 hrule).1 hy hn⟩
  obtain ⟨h, hle, w, n, d⟩ := exists_derivesWith_le hright
  exact ⟨h + 1, Nat.succ_le_succ hle, succ_mem_derivationHeights_iff.2 ⟨rule, hrule, w, n, d⟩⟩

/-- **What is known is derived** within the height that is known: by a rule that backs it, one after the
other from the lowest. -/
theorem Backed.exists_le (backed : Backed g known) (hx : known.AtMost x b) :
    ∃ h ≤ b, h ∈ g.derivationHeights x := by
  induction b generalizing x with
  | zero =>
    obtain ⟨rule, -, hr⟩ := backed x 0 hx
    exact absurd hr not_ruleAtMost_zero
  | succ b ih =>
    obtain ⟨rule, hrule, hr⟩ := backed x (b + 1) hx
    exact exists_le_of_ruleAtMost hrule hr fun y hy => ih hy

theorem Backed.isProductive (backed : Backed g known) (hx : known.lookup x = some h) :
    g.IsProductive x := by
  obtain ⟨k, -, hk⟩ := backed.exists_le ⟨h, Nat.le_refl h, hx⟩
  exact derivationHeights_nonempty_iff.1 ⟨k, hk⟩

/-! ## Nor too large -/

/-- No nonterminal that is derived within height `b` is thought to be higher than it is. -/
def Covers (g : Grammar) (known : Heights) (b : Nat) : Prop :=
  ∀ x ∈ g.nonterminals, ∀ h ∈ g.derivationHeights x, h ≤ b → known.AtMost x h

theorem Covers.zero (g : Grammar) (known : Heights) : Covers g known 0 := by
  intro x hx h hh hle
  have := pos_of_mem_derivationHeights hx hh
  omega

/-- **A pass settles one height more**, for the symbols of a right side are derived within less. -/
theorem Covers.heightPass (covers : Covers g known b) : Covers g (g.heightPass known) (b + 1) := by
  intro x hx h hh hle
  cases h with
  | zero => exact absurd (pos_of_mem_derivationHeights hx hh) (Nat.lt_irrefl 0)
  | succ h =>
    obtain ⟨rule, hrule, w, n, d⟩ := succ_mem_derivationHeights_iff.1 hh
    refine atMost_heightPass hrule (ruleAtMost_succ_iff.2 fun y hy hn => ?_)
    obtain ⟨k, hkh, hk⟩ := d.exists_le_of_mem hy
    exact (covers y hn k hk (by omega)).mono hkh

/-- Any number of passes settles as many heights. -/
theorem covers_iterate (g : Grammar) (n : Nat) : Covers g (g.heightPass^[n] []) n := by
  induction n with
  | zero => exact .zero g []
  | succ n ih =>
    rw [Function.iterate_succ_apply']
    exact ih.heightPass

/-! ## All heights -/

/-- To stop where a pass changes nothing is to make all passes. -/
theorem heightPasses_eq_iterate (g : Grammar) (n : Nat) (known : Heights) :
    g.heightPasses n known = g.heightPass^[n] known := by
  induction n generalizing known with
  | zero => rfl
  | succ n ih =>
    rw [heightPasses, Function.iterate_succ_apply]
    by_cases hfixed : g.heightPass known = known
    · simp [hfixed, Function.iterate_fixed]
    · simp [hfixed, ih]

theorem backed_heights (g : Grammar) : Backed g g.heights := by
  rw [heights, heightPasses_eq_iterate]
  exact (Backed.nil g).iterate _

/-- **What is known in the end**: a nonterminal has a height of at most `b` just if it is derived
within `b`. -/
theorem atMost_heights_iff (hx : x ∈ g.nonterminals) :
    g.heights.AtMost x b ↔ ∃ h ≤ b, h ∈ g.derivationHeights x := by
  constructor
  · exact (backed_heights g).exists_le
  · rintro ⟨h, hle, hh⟩
    have hcovers : Covers g g.heights g.rules.length := by
      rw [heights, heightPasses_eq_iterate]
      exact covers_iterate g _
    obtain ⟨k, hkh, hk⟩ := exists_isLeast_le hh
    exact (hcovers x hx k hk.1 (le_length_rules_of_isLeast hk)).mono (Nat.le_trans hkh hle)

/-- So its height is the least height of a derivation. -/
theorem lookup_heights_eq_some_iff (hx : x ∈ g.nonterminals) :
    g.heights.lookup x = some h ↔ IsLeast (g.derivationHeights x) h := by
  constructor
  · intro hlookup
    have hbound : ∀ b, h ≤ b ↔ ∃ k ≤ b, k ∈ g.derivationHeights x :=
      fun b => (Heights.atMost_iff_of_lookup hlookup).symm.trans (atMost_heights_iff hx)
    have hlower : ∀ k ∈ g.derivationHeights x, h ≤ k := fun k hk =>
      (hbound k).2 ⟨k, Nat.le_refl k, hk⟩
    obtain ⟨k, hle, hk⟩ := (hbound h).1 (Nat.le_refl h)
    obtain rfl : k = h := Nat.le_antisymm hle (hlower k hk)
    exact ⟨hk, hlower⟩
  · intro hleast
    obtain ⟨k, hle, hk⟩ := (atMost_heights_iff hx).2 ⟨h, Nat.le_refl h, hleast.1⟩
    obtain ⟨j, hjk, hj⟩ := (atMost_heights_iff hx).1 ⟨k, Nat.le_refl k, hk⟩
    have := hleast.2 hj
    obtain rfl : k = h := by omega
    exact hk

theorem mem_nonterminals_of_lookup_heights (hcf : g.isContextFree = true)
    (hx : g.heights.lookup x = some h) : x ∈ g.nonterminals := by
  obtain ⟨rule, hrule, -⟩ := backed_heights g x h ⟨h, Nat.le_refl h, hx⟩
  exact mem_nonterminals_of_mem_rulesOf hcf hrule

theorem isProductive_of_lookup_heights (hx : g.heights.lookup x = some h) : g.IsProductive x :=
  (backed_heights g).isProductive hx

/-- **The nonterminals that have a height** are those that derive a word. -/
theorem exists_lookup_heights_iff (hx : x ∈ g.nonterminals) :
    (∃ h, g.heights.lookup x = some h) ↔ g.IsProductive x := by
  constructor
  · rintro ⟨h, hh⟩
    exact isProductive_of_lookup_heights hh
  · intro hproductive
    obtain ⟨h, hh⟩ := derivationHeights_nonempty_iff.2 hproductive
    obtain ⟨k, -, hk⟩ := (atMost_heights_iff hx).2 ⟨h, Nat.le_refl h, hh⟩
    exact ⟨k, hk⟩

/-! ## The end of the passes -/

theorem atMost_heights_of_rule (hx : x ∈ g.nonterminals) (hrule : rule ∈ g.rulesOf x)
    (hr : g.RuleAtMost g.heights rule b) : g.heights.AtMost x b := by
  cases b with
  | zero => exact absurd hr not_ruleAtMost_zero
  | succ b =>
    exact (atMost_heights_iff hx).2
      (exists_le_of_ruleAtMost hrule hr fun y hy => (backed_heights g).exists_le hy)

/-- The height of a nonterminal is that of a rule for it. -/
theorem exists_heightOfRule?_eq (hx : x ∈ g.nonterminals) (hlookup : g.heights.lookup x = some h) :
    ∃ rule ∈ g.rulesOf x, g.heightOfRule? g.heights rule = some h := by
  obtain ⟨rule, hrule, k, hle, hk⟩ := backed_heights g x h ⟨h, Nat.le_refl h, hlookup⟩
  have hbound := atMost_heights_of_rule hx hrule ⟨k, Nat.le_refl k, hk⟩
  rw [Heights.atMost_iff_of_lookup hlookup] at hbound
  obtain rfl := Nat.le_antisymm hle hbound
  exact ⟨rule, hrule, hk⟩

/-- **One more pass changes nothing** in a context free grammar. -/
theorem heightPass_heights (hcf : g.isContextFree = true) : g.heightPass g.heights = g.heights := by
  have hfixed : ∀ rule ∈ g.rules, g.lower g.heights rule = g.heights := by
    intro rule hrule
    refine lower_eq_self fun x h hhead hr => ?_
    have hmem : rule ∈ g.rulesOf x := mem_rulesOf.2 ⟨hrule, hhead⟩
    exact atMost_heights_of_rule (mem_nonterminals_of_mem_rulesOf hcf hmem) hmem
      ⟨h, Nat.le_refl h, hr⟩
  refine List.foldlRecOn (motive := (· = g.heights)) g.rules g.lower rfl ?_
  rintro _ rfl rule hrule
  exact hfixed rule hrule

/-- **Heights are least.**  Passes over the rules of a context free grammar come to an end: as many as
there are rules lead to its heights, and one more changes nothing.  A nonterminal has a height just if
it derives a word, be it the empty one, and its height is then the least height of a derivation.  It is
the height of one of its rules, and none of them is less high. -/
theorem heights_are_least (hcf : g.isContextFree = true) :
    g.heightPass^[g.rules.length] [] = g.heights ∧ g.heightPass g.heights = g.heights ∧
      ∀ x ∈ g.nonterminals,
        ((∃ h, g.heights.lookup x = some h) ↔ ∃ w, g.Derives [x] w) ∧
        ∀ h, g.heights.lookup x = some h →
          IsLeast {k | ∃ w n, g.DerivesWith [x] w k n} h ∧
          (∃ rule ∈ g.rulesOf x, g.heightOfRule? g.heights rule = some h) ∧
          ∀ rule ∈ g.rulesOf x, ∀ k, g.heightOfRule? g.heights rule = some k → h ≤ k := by
  refine ⟨(heightPasses_eq_iterate g _ _).symm, heightPass_heights hcf, fun x hx =>
    ⟨exists_lookup_heights_iff hx, fun h hlookup => ⟨(lookup_heights_eq_some_iff hx).1 hlookup,
      exists_heightOfRule?_eq hx hlookup, fun rule hrule k hk => ?_⟩⟩⟩
  have hbound := atMost_heights_of_rule hx hrule ⟨k, Nat.le_refl k, hk⟩
  exact (Heights.atMost_iff_of_lookup hlookup).1 hbound

/-- A grammar in which the way from `P` over `Q` is found before the shorter one over `R`, and `U` never
finishes. -/
def detour : Grammar where
  start := ⟨"S"⟩
  nonterminals := [⟨"S"⟩, ⟨"A"⟩, ⟨"Q"⟩, ⟨"P"⟩, ⟨"R"⟩, ⟨"U"⟩]
  terminals := [⟨"q"⟩, ⟨"r"⟩]
  rules := [.ofHead ⟨"S"⟩ [⟨"P"⟩, ⟨"S"⟩], .ofHead ⟨"S"⟩ [⟨"P"⟩, ⟨"P"⟩], .ofHead ⟨"A"⟩ [.epsilon],
    .ofHead ⟨"Q"⟩ [⟨"A"⟩, ⟨"q"⟩], .ofHead ⟨"P"⟩ [⟨"Q"⟩], .ofHead ⟨"P"⟩ [⟨"R"⟩],
    .ofHead ⟨"R"⟩ [⟨"r"⟩], .ofHead ⟨"U"⟩ [⟨"q"⟩, ⟨"U"⟩]]
  nodup_nonterminals := by decide
  nodup_terminals := by decide
  wellFormed := defect?_eq_none_iff.1 (by decide)

/-- In the end the shorter way counts for `S` too, and `U` has no height. -/
theorem detour_heights_are_least : detour.isContextFree = true ∧ ⟨"S"⟩ ∈ detour.nonterminals ∧
    ⟨"U"⟩ ∈ detour.nonterminals ∧ detour.heights.lookup ⟨"S"⟩ = some 3 ∧
    IsLeast {k | ∃ w n, detour.DerivesWith [⟨"S"⟩] w k n} 3 ∧ ¬ ∃ w, detour.Derives [⟨"U"⟩] w := by
  have hcf : detour.isContextFree = true := by decide
  have hS : ⟨"S"⟩ ∈ detour.nonterminals := by decide
  have hU : ⟨"U"⟩ ∈ detour.nonterminals := by decide
  have hlookup : detour.heights.lookup ⟨"S"⟩ = some 3 := by decide
  have hnone : detour.heights.lookup ⟨"U"⟩ = none := by decide
  obtain ⟨-, -, hall⟩ := heights_are_least hcf
  refine ⟨hcf, hS, hU, hlookup, ((hall _ hS).2 3 hlookup).1, fun hderives => ?_⟩
  obtain ⟨h, hh⟩ := (hall _ hU).1.2 hderives
  cases hnone.symm.trans hh

-- after two passes the longer way still counts
example : (detour.heightPass^[2] []).lookup ⟨"S"⟩ = some 4 := by decide

end Grammar
end NormalGrammar
