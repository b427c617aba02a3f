import NormalGrammar.Normal.NormalForm
import NormalGrammar.Proofs.Simulation

/-!
# The helpers of a workshop

While rules are brought into normal form, parts of right sides are replaced by helpers.

* The name of a new helper is not taken (`ofNumber_freeNumber_not_mem`), and what its making does is
  said in one place (`mint_spec`).
* What a grammar brings along are the symbols whose only rule is in normal form (`mem_brought_iff`);
  what holds of them is shown by `ofGrammar_induction`.
* `Workshop.Valid` holds of a workshop at all times: a helper is new, or a nonterminal of the grammar
  with a single rule; new helpers have names of their own; right sides of helpers are short.
* It is kept when a helper is learned (`Valid.learn`) or made (`Valid.mint`).
-/

namespace NormalGrammar

/-! ## Names of helpers -/

namespace Symbol

theorem ofNumber_injective {m n : Nat} (h : ofNumber m = ofNumber n) : m = n := by
  have hdigits := congrArg String.toList (congrArg Symbol.name h)
  simp only [ofNumber, Nat.toList_repr] at hdigits
  have hvalue := congrArg (Nat.ofDigitChars 10 · 0) hdigits
  simpa using hvalue

end Symbol

namespace Workshop

open Grammar

/-- If the number that is tried last is taken, so are all that were tried. -/
theorem mem_of_freeNumber_mem {taken : List Symbol} : ∀ {tries n : Nat},
    Symbol.ofNumber (freeNumber taken tries n) ∈ taken →
      ∀ i ≤ tries, Symbol.ofNumber (n + i) ∈ taken
  | 0, n, h, i, hi => by
    obtain rfl : i = 0 := Nat.le_zero.1 hi
    exact h
  | tries + 1, n, h, i, hi => by
    rw [freeNumber] at h
    split at h
    · rename_i hn
      cases i with
      | zero => exact hn
      | succ i =>
        have := mem_of_freeNumber_mem h i (Nat.le_of_succ_le_succ hi)
        rwa [Nat.add_right_comm] at this
    · rename_i hn
      exact absurd h hn

/-- Among one more number than there are taken names, one is free. -/
theorem ofNumber_freeNumber_not_mem (taken : List Symbol) (n : Nat) :
    Symbol.ofNumber (freeNumber taken taken.length n) ∉ taken := by
  intro h
  have hsub : (List.range (taken.length + 1)).map (fun i => Symbol.ofNumber (n + i)) ⊆ taken := by
    intro x hx
    obtain ⟨i, hi, rfl⟩ := List.mem_map.1 hx
    exact mem_of_freeNumber_mem h i (Nat.le_of_lt_succ (List.mem_range.1 hi))
  have hnodup : ((List.range (taken.length + 1)).map fun i => Symbol.ofNumber (n + i)).Nodup := by
    refine List.pairwise_map.2 (List.nodup_range.imp fun {i j} hij he => hij ?_)
    exact Nat.add_left_cancel (Symbol.ofNumber_injective he)
  have hlen := hnodup.length_le_of_subset hsub
  rw [List.length_map, List.length_range] at hlen
  exact absurd hlen (Nat.not_succ_le_self _)

/-! ## Looking helpers up -/

variable {g : Grammar} {w w' : Workshop} {h k : Helper} {pattern : List Symbol} {x : Symbol}

theorem mem_known_of_helperFor? (hx : w.helperFor? pattern = some x) : ⟨x, pattern⟩ ∈ w.known := by
  obtain ⟨h, hf, rfl⟩ := Option.map_eq_some_iff.1 hx
  have hp := List.find?_some hf
  rw [decide_eq_true_eq] at hp
  rw [← hp]
  exact List.mem_of_find?_eq_some hf

theorem helperFor?_eq_none_iff : w.helperFor? pattern = none ↔ ∀ h ∈ w.known, h.pattern ≠ pattern := by
  simp [helperFor?]

theorem patternOf?_eq_none_iff : w.patternOf? x = none ↔ ∀ h ∈ w.known, h.symbol ≠ x := by
  simp [patternOf?]

theorem known_subset_learn : w.known ⊆ (w.learn k).known := by
  unfold learn
  split
  · exact List.Subset.refl _
  · exact List.subset_append_left _ _

theorem mem_known_learn (hh : h ∈ (w.learn k).known) : h ∈ w.known ∨ h = k := by
  unfold learn at hh
  split at hh
  · exact .inl hh
  · exact (List.mem_append.1 hh).imp_right List.mem_singleton.1

@[simp]
theorem minted_learn : (w.learn k).minted = w.minted := by
  unfold learn
  split <;> rfl

/-- A helper with a new symbol and a new right side is learned. -/
theorem known_learn_of_new (hsymbol : ∀ h ∈ w.known, h.symbol ≠ k.symbol)
    (hpattern : ∀ h ∈ w.known, h.pattern ≠ k.pattern) : (w.learn k).known = w.known ++ [k] := by
  unfold learn
  rw [patternOf?_eq_none_iff.2 hsymbol, helperFor?_eq_none_iff.2 hpattern]
  rfl

/-- The nonterminals so far are declared, or helpers that were made. -/
@[simp]
theorem mem_nonterminals :
    x ∈ w.nonterminals g ↔ x ∈ g.nonterminals ∨ ∃ h ∈ w.minted, h.symbol = x := by
  rw [nonterminals, List.mem_append, List.mem_map]

theorem nodup_nonterminals (hnodup : (w.minted.map Helper.symbol).Nodup)
    (hfresh : ∀ h ∈ w.minted, h.symbol ∉ g.nonterminals) : (w.nonterminals g).Nodup := by
  refine List.nodup_append.2 ⟨g.nodup_nonterminals, hnodup, ?_⟩
  rintro x hx _ hm rfl
  obtain ⟨k, hk, rfl⟩ := List.mem_map.1 hm
  exact hfresh k hk hx

@[simp]
theorem taken_learn : (w.learn k).taken g = w.taken g := by
  rw [taken, taken, nonterminals, nonterminals, minted_learn]

/-- The helper that is made for a right side that has none gets a name that was free, and is known
from then on. -/
theorem mint_spec (hknown : ∀ h ∈ w.known, h.symbol ∈ w.taken g)
    (hnone : w.helperFor? pattern = none) (hm : w.mint g pattern = (x, w')) :
    x ∉ w.taken g ∧ w'.known = w.known ++ [⟨x, pattern⟩] ∧
      w'.minted = w.minted ++ [⟨x, pattern⟩] := by
  have hfree := ofNumber_freeNumber_not_mem (w.taken g) w.next
  unfold Workshop.mint at hm
  generalize freeNumber (w.taken g) (w.taken g).length w.next = n at hm hfree
  obtain ⟨rfl, rfl⟩ := Prod.mk.inj hm
  refine ⟨hfree, known_learn_of_new (fun h hh he => hfree ?_) (helperFor?_eq_none_iff.1 hnone), rfl⟩
  exact (show h.symbol = Symbol.ofNumber n from he) ▸ hknown h hh

/-! ## Helpers that a grammar brings along -/

/-- A grammar brings a helper along if the rule of the helper is the only one for its symbol, and in
normal form. -/
def Brought (g : Grammar) (h : Helper) : Prop :=
  hasSingleRule g h.symbol = true ∧ h.rule ∈ g.rules ∧ g.isNormal h.rule = true

theorem mem_brought_iff : h ∈ brought g ↔ Brought g h := by
  simp only [brought, List.mem_filterMap, Option.bind_eq_some_iff, Rule.head?_eq_some_iff]
  constructor
  · rintro ⟨⟨left, right⟩, hrule, x, rfl, hsome⟩
    split at hsome
    · rename_i htest
      obtain rfl := Option.some.inj hsome
      rw [Bool.and_eq_true] at htest
      exact ⟨htest.1, hrule, htest.2⟩
    · cases hsome
  · rintro ⟨hsingle, hrule, hnormal⟩
    refine ⟨h.rule, hrule, h.symbol, rfl, ?_⟩
    rw [hsingle, hnormal]
    rfl

/-- What holds of no helpers, and is kept when helpers are learned that a grammar brings along, holds
of all that it brings along. -/
theorem ofGrammar_induction {P : Workshop → Prop} (hempty : P ⟨[], [], 0⟩)
    (hlearn : ∀ w k, Brought g k → P w → P (w.learn k)) : P (ofGrammar g) := by
  have hall : ∀ k ∈ brought g, Brought g k := fun _ => mem_brought_iff.1
  unfold ofGrammar
  generalize brought g = hs at hall
  generalize (⟨[], [], 0⟩ : Workshop) = w at hempty
  induction hs generalizing w with
  | nil => exact hempty
  | cons k hs ih =>
    obtain ⟨hk, hall⟩ := List.forall_mem_cons.1 hall
    exact ih hall _ (hlearn w k hk hempty)

@[simp]
theorem minted_ofGrammar (g : Grammar) : (ofGrammar g).minted = [] :=
  ofGrammar_induction (P := fun w => w.minted = []) rfl fun _ _ _ hw => minted_learn.trans hw

theorem brought_of_mem_known : h ∈ (ofGrammar g).known → Brought g h := by
  refine ofGrammar_induction (P := fun w => ∀ h ∈ w.known, Brought g h) nofun ?_ h
  intro w k hk hw h hh
  rcases mem_known_learn hh with hh | rfl
  · exact hw h hh
  · exact hk

/-! ## What holds of workshops -/

/-- What may stand on a short right side: a nonterminal of the grammar, or a new helper whose right
side is made of terminals and of such symbols in its turn. -/
inductive Grounded (g : Grammar) (minted : List Helper) : Symbol → Prop
  | declared {x : Symbol} : x ∈ g.nonterminals → Grounded g minted x
  | helper {h : Helper} : h ∈ minted → (∀ y ∈ h.pattern, y ∉ g.terminals → Grounded g minted y) →
      Grounded g minted h.symbol

/-- A right side of the wanted form. -/
def Short (g : Grammar) (minted : List Helper) (right : List Symbol) : Prop :=
  (∃ a ∈ g.terminals, right = [a]) ∨
    ∃ y z, Grounded g minted y ∧ Grounded g minted z ∧ right = [y, z]

/-- What holds of a workshop at all times. -/
structure Valid (g : Grammar) (w : Workshop) : Prop where
  minted_subset : w.minted ⊆ w.known
  minted_fresh : ∀ h ∈ w.minted, h.symbol ∉ g.nonterminals ∧ h.symbol ∉ g.terminals
  minted_nodup : (w.minted.map Helper.symbol).Nodup
  minted_grounded : ∀ h ∈ w.minted, Grounded g w.minted h.symbol
  known_origin : ∀ h ∈ w.known,
    h ∈ w.minted ∨ (h.symbol ∈ g.nonterminals ∧ hasSingleRule g h.symbol = true)
  known_short : ∀ h ∈ w.known, Short g w.minted h.pattern

theorem Grounded.mono {minted more : List Helper} (hsub : minted ⊆ more)
    (hx : Grounded g minted x) : Grounded g more x := by
  induction hx with
  | declared hx => exact .declared hx
  | helper hmem _ ih => exact .helper (hsub hmem) ih

theorem Short.mono {minted more : List Helper} {right : List Symbol} (hsub : minted ⊆ more)
    (hr : Short g minted right) : Short g more right :=
  hr.imp_right fun ⟨y, z, hy, hz, h⟩ => ⟨y, z, hy.mono hsub, hz.mono hsub, h⟩

theorem Grounded.declared_or_minted {minted : List Helper} (hx : Grounded g minted x) :
    x ∈ g.nonterminals ∨ ∃ h ∈ minted, h.symbol = x := by
  cases hx with
  | declared hx => exact .inl hx
  | helper hmem _ => exact .inr ⟨_, hmem, rfl⟩

/-- What stands on a short right side is a terminal, or grounded. -/
theorem Short.grounded {minted : List Helper} {right : List Symbol} (hr : Short g minted right) :
    ∀ y ∈ right, y ∉ g.terminals → Grounded g minted y := by
  rcases hr with ⟨a, ha, rfl⟩ | ⟨y, z, hy, hz, rfl⟩
  · exact fun y hy hn => absurd (List.mem_singleton.1 hy ▸ ha) hn
  · intro x hx _
    rcases List.mem_cons.1 hx with rfl | hx
    · exact hy
    · exact List.mem_singleton.1 hx ▸ hz

/-- The symbol of a known helper is grounded. -/
theorem Valid.grounded (valid : Valid g w) (hh : h ∈ w.known) : Grounded g w.minted h.symbol := by
  rcases valid.known_origin h hh with hm | ⟨hn, -⟩
  · exact valid.minted_grounded h hm
  · exact .declared hn

theorem Valid.symbol_mem_taken (valid : Valid g w) (hh : h ∈ w.known) :
    h.symbol ∈ w.taken g := by
  rw [taken, List.mem_append, mem_nonterminals]
  rcases valid.known_origin h hh with hm | ⟨hn, -⟩
  · exact .inl (.inr ⟨h, hm, rfl⟩)
  · exact .inl (.inl hn)

/-! ## Learning and making helpers -/

/-- Learning a nonterminal with a single rule. -/
theorem Valid.learn (valid : Valid g w) (hk : k.symbol ∈ g.nonterminals)
    (hsingle : hasSingleRule g k.symbol = true) (hshort : Short g w.minted k.pattern) :
    Valid g (w.learn k) where
  minted_subset := by
    rw [minted_learn]
    exact List.Subset.trans valid.minted_subset known_subset_learn
  minted_fresh := by simpa using valid.minted_fresh
  minted_nodup := by simpa using valid.minted_nodup
  minted_grounded := by simpa using valid.minted_grounded
  known_origin := by
    intro h hh
    rw [minted_learn]
    rcases mem_known_learn hh with hh | rfl
    · exact valid.known_origin h hh
    · exact .inr ⟨hk, hsingle⟩
  known_short := by
    intro h hh
    rw [minted_learn]
    rcases mem_known_learn hh with hh | rfl
    · exact valid.known_short h hh
    · exact hshort

/-- Making a helper for a short right side that has none. -/
theorem Valid.mint (valid : Valid g w) (hshort : Short g w.minted pattern)
    (hnone : w.helperFor? pattern = none) (hm : w.mint g pattern = (x, w')) :
    Valid g w' ∧ w'.minted = w.minted ++ [⟨x, pattern⟩] ∧ w.known ⊆ w'.known ∧
      ⟨x, pattern⟩ ∈ w'.known ∧ ∀ h ∈ w'.known, h ∈ w.known ∨ h ∈ w'.minted := by
  obtain ⟨hfree, hk, hm⟩ := mint_spec (fun h hh => valid.symbol_mem_taken hh) hnone hm
  have hfree' : x ∉ g.nonterminals ∧ x ∉ w.minted.map Helper.symbol ∧ x ∉ g.terminals := by
    simpa only [taken, nonterminals, List.mem_append, not_or, and_assoc] using hfree
  have hsub : w.minted ⊆ w'.minted := by simp [hm]
  have hself : ⟨x, pattern⟩ ∈ w'.minted := by simp [hm]
  have hminted : ∀ h ∈ w'.minted, h ∈ w.minted ∨ h = ⟨x, pattern⟩ := by simp [hm]
  have hknown : ∀ h ∈ w'.known, h ∈ w.known ∨ h = ⟨x, pattern⟩ := by simp [hk]
  refine ⟨⟨?_, ?_, ?_, ?_, ?_, ?_⟩, hm, by simp [hk], by simp [hk], ?_⟩
  · intro h hh
    rw [hk]
    rcases hminted h hh with hh | rfl
    · exact List.mem_append_left _ (valid.minted_subset hh)
    · simp
  · intro h hh
    rcases hminted h hh with hh | rfl
    · exact valid.minted_fresh h hh
    · exact ⟨hfree'.1, hfree'.2.2⟩
  · rw [hm, List.map_append, List.nodup_append]
    refine ⟨valid.minted_nodup, by simp, ?_⟩
    rintro a ha _ hb rfl
    obtain rfl : a = x := by simpa using hb
    exact hfree'.2.1 ha
  · intro h hh
    rcases hminted h hh with hh | rfl
    · exact (valid.minted_grounded h hh).mono hsub
    · refine .helper hself ?_
      intro z hz hn
      exact (hshort.grounded z hz hn).mono hsub
  · intro h hh
    rcases hknown h hh with hh | rfl
    · exact (valid.known_origin h hh).imp_left fun hm => hsub hm
    · exact .inl hself
  · intro h hh
    rcases hknown h hh with hh | rfl
    · exact (valid.known_short h hh).mono hsub
    · exact hshort.mono hsub
  · intro h hh
    rcases hknown h hh with hh | rfl
    · exact .inl hh
    · exact .inr hself

end Workshop

end NormalGrammar
