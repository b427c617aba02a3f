import NormalGrammar.Proofs.Sentences

/-!
# How deep samples go

At depth zero the depth stays zero, so it is not the depth that brings nested expansions to an end.
What does is that the rules that finish soonest lead to symbols of smaller heights.

* An expansion looks only at the right sides of its candidates, one step less deep (`expand_eq`), and
  such expansions cannot be nested forever (`wellFounded_nested`): either the depth goes down, or it is
  zero and the height does.
* `Sampler.Returns` says what is returned, and after how many words.  A word that is returned comes
  with a derivation, which is at most so much higher than the depth as heights can be, and in which
  every expansion took a word (`returns_expand`).
* At depth zero the derivation is as high as the start symbol, so it is one of the lowest
  (`sampleFrom_depth`).
-/

namespace NormalGrammar

open Grammar

/-! ## What samplers return, and after how many words -/

/-- A word is drawn for each choice, if not more. -/
theorem WordSource.drawn_lt_chooseFrom (k : Nat) (script : List UInt32) (drawn : Nat) :
    drawn < (chooseFrom k script drawn).2.drawn := by
  fun_induction chooseFrom k script drawn with
  | case1 drawn => exact Nat.lt_succ_self drawn
  | case2 word rest drawn _ => exact Nat.lt_succ_self drawn
  | case3 word rest drawn _ ih => exact Nat.lt_trans (Nat.lt_succ_self drawn) ih

namespace Sampler

variable {α β : Type} {P P' : α → Nat → Prop} {Q : β → Nat → Prop} {m : Sampler α} {f : α → Sampler β}
  {g : Grammar} {expand : Symbol → Sampler (List Symbol)} {xs w : List Symbol} {b c k : Nat}

/-- If a sampler returns a value, it has the property `P` together with the number of words drawn. -/
def Returns (m : Sampler α) (P : α → Nat → Prop) : Prop :=
  ∀ source a later, outcome m source = (.ok a, later) →
    ∃ k, later.drawn = source.drawn + k ∧ P a k

theorem Returns.pure {a : α} (h : P a 0) : Returns (Pure.pure a) P := by
  rintro source _ _ ⟨⟩
  exact ⟨0, rfl, h⟩

theorem Returns.throw (e : SampleError) : Returns (throw e) P := by
  rintro source a later ⟨⟩

/-- The words drawn by two samplers in a row are counted together. -/
theorem Returns.bind (hm : Returns m P) (hf : ∀ a k, P a k → Returns (f a) fun b j => Q b (k + j)) :
    Returns (m >>= f) Q := by
  intro source b later h
  rw [outcome_bind] at h
  cases hfirst : outcome m source with
  | mk result between =>
    rw [hfirst] at h
    cases result with
    | error e => cases h
    | ok a =>
      obtain ⟨k, hk, hP⟩ := hm source a between hfirst
      obtain ⟨j, hj, hQ⟩ := hf a k hP between b later h
      exact ⟨k + j, by omega, hQ⟩

theorem Returns.mono (hm : Returns m P) (h : ∀ a k, P a k → P' a k) : Returns m P' := by
  intro source a later ha
  obtain ⟨k, hk, hP⟩ := hm source a later ha
  exact ⟨k, hk, h a k hP⟩

theorem returns_pick (first : Rule) (others : List Rule) :
    Returns (pick first others) fun rule k => rule ∈ first :: others ∧ 0 < k := by
  intro source rule later h
  have hmem := ends_pick (E := fun _ => False) first others source
  rw [h] at hmem
  obtain rfl : (WordSource.choose (first :: others).length source).2 = later :=
    congrArg Prod.snd h
  have hlt := WordSource.drawn_lt_chooseFrom (first :: others).length source.script source.drawn
  exact ⟨_ - source.drawn, (Nat.add_sub_cancel' (Nat.le_of_lt hlt)).symm, hmem, Nat.sub_pos_of_lt hlt⟩

/-- A word is derived within height `b`, and with no more expansions than words were drawn. -/
def Fits (g : Grammar) (xs : List Symbol) (b : Nat) (w : List Symbol) (k : Nat) : Prop :=
  ∃ h ≤ b, ∃ n ≤ k, g.DerivesWith xs w h n

theorem Fits.mono (hw : Fits g xs b w k) (hle : b ≤ c) : Fits g xs c w k := by
  obtain ⟨h, hh, hn⟩ := hw
  exact ⟨h, Nat.le_trans hh hle, hn⟩

theorem returns_expandEach (hxs : ∀ x ∈ xs, Returns (expand x) (Fits g [x] b)) :
    Returns (expandEach expand xs) (Fits g xs b) := by
  induction xs with
  | nil => exact .pure ⟨0, Nat.zero_le b, 0, Nat.le_refl 0, .nil⟩
  | cons x xs ih =>
    obtain ⟨hx, hxs⟩ := List.forall_mem_cons.1 hxs
    refine .bind hx fun u k ⟨h, hh, n, hn, dx⟩ => .bind (ih hxs) fun v j ⟨i, hi, m, hm, dxs⟩ =>
      .pure ⟨max h i, Nat.max_le.2 ⟨hh, hi⟩, n + m, by omega, dx.append dxs⟩

end Sampler

open Sampler

namespace Grammar

variable {g : Grammar} {known : Heights} {choices : Symbol → List Rule} {rule : Rule}
  {expand : Symbol → Sampler (List Symbol)} {x y : Symbol} {b h depth : Nat}

/-! ## Nested expansions -/

/-- The rules that may be chosen for a symbol: all of them down to the depth limit, and those that finish
soonest below it. -/
def candidates (g : Grammar) : (depth : Nat) → Symbol → List Rule
  | 0 => g.soonestRules g.heights
  | _ + 1 => g.rulesOf

/-- **A symbol is expanded** by one of its candidates, whose right side is expanded one step less
deep. -/
theorem expand_eq (hcf : g.isContextFree = true) (depth : Nat) (x : Symbol) :
    g.expand g.heights depth x =
      g.expandSymbol (g.candidates depth) (g.expand g.heights (depth - 1)) x := by
  cases depth with
  | zero => exact expand_zero hcf x
  | succ depth => rfl

/-- One expansion asks for another: of a symbol on the right side of a candidate, one step less
deep. -/
def Nested (g : Grammar) (inner outer : Nat × Symbol) : Prop :=
  inner.1 = outer.1 - 1 ∧ ∃ rule ∈ g.candidates outer.1 outer.2, inner.2 ∈ rule.right

/-- **Expansions are not nested forever**: the depth goes down, or it is zero and the height goes
down. -/
theorem wellFounded_nested (hcf : g.isContextFree = true) : WellFounded g.Nested := by
  let rank : Nat × Symbol → Nat × Nat := fun call => (call.1, (g.heights.lookup call.2).getD 0)
  refine Subrelation.wf ?_ (InvImage.wf rank (WellFounded.prod_lex wellFounded_lt wellFounded_lt))
  rintro ⟨d, y⟩ ⟨depth, x⟩ ⟨hd, rule, hrule, hy⟩
  cases depth with
  | succ depth => exact Prod.Lex.left _ _ (by simp at hd; omega)
  | zero =>
    obtain rfl : d = 0 := hd
    -- what stands on the right of a rule that finishes soonest is less high
    obtain ⟨-, h, hx, -⟩ := mem_soonestRules_iff.1 hrule
    obtain ⟨h, rfl⟩ := Nat.exists_eq_succ_of_ne_zero (Nat.ne_of_gt (pos_of_lookup_heights hx))
    have hwithin : g.FinishesWithin (h + 1) x := fun k hk => by
      rw [Option.some.inj (hk.symm.trans hx)]
    have hinner := hwithin.of_soonestRules hcf hrule hy
    refine Prod.Lex.right _ ?_
    show (g.heights.lookup y).getD 0 < (g.heights.lookup x).getD 0
    cases hk : g.heights.lookup y with
    | none => simp [hx]
    | some k => simpa [hx] using Nat.lt_succ_of_le (hinner k hk)

/-! ## Derivations of what is returned -/

/-- A symbol becomes a word that it derives within height `b`, if the right sides of its candidates
become words that they derive within less. -/
theorem returns_expandSymbol (hchoices : ∀ rule ∈ choices x, rule ∈ g.rulesOf x)
    (hexpand : ∀ rule ∈ choices x, ∃ c < b, ∀ y ∈ rule.right, Returns (expand y) (Fits g [y] c)) :
    Returns (g.expandSymbol choices expand x) (Fits g [x] b) := by
  by_cases hε : x = Symbol.epsilon
  · rw [hε, expandSymbol_epsilon]
    exact .pure ⟨0, Nat.zero_le b, 0, Nat.le_refl 0, .epsilon .nil⟩
  by_cases ha : x ∈ g.terminals
  · rw [expandSymbol_terminal ha]
    exact .pure ⟨0, Nat.zero_le b, 0, Nat.le_refl 0, .terminal ha .nil⟩
  by_cases hrules : g.rulesOf x = []
  · rw [expandSymbol_noRules hε ha hrules]
    exact .throw _
  cases hcons : choices x with
  | nil =>
    rw [expandSymbol_neverFinishes hε ha hrules hcons]
    exact .throw _
  | cons first others =>
    rw [expandSymbol_pick hε ha hrules hcons]
    refine .bind (returns_pick first others) fun rule k ⟨hrule, hk⟩ => ?_
    rw [← hcons] at hrule
    obtain ⟨c, hc, hright⟩ := hexpand rule hrule
    refine (returns_expandEach hright).mono fun w j ⟨h, hh, n, hn, d⟩ => ?_
    have dx : g.DerivesWith [x] (w ++ []) (max (h + 1) 0) (n + 1 + 0) :=
      .expand (hchoices rule hrule) d .nil
    rw [List.append_nil] at dx
    exact ⟨_, Nat.max_le.2 ⟨by omega, Nat.zero_le b⟩, n + 1 + 0, by omega, dx⟩

/-- Below the depth limit the derivation is no higher than it may be. -/
theorem returns_finish (height : Nat) (x : Symbol) :
    Returns (g.finish known height x) (Fits g [x] height) := by
  induction height generalizing x with
  | zero => exact returns_expandSymbol nofun nofun
  | succ height ih =>
    exact returns_expandSymbol (fun rule hrule => (mem_soonestRules_iff.1 hrule).1)
      fun rule _ => ⟨height, Nat.lt_succ_self height, fun y _ => ih y⟩

/-- **What a symbol becomes is derived** with a height that exceeds the depth by no more than heights
come to, and with no more expansions than words. -/
theorem returns_expand (hb : ∀ x h, g.heights.lookup x = some h → h ≤ b) (depth : Nat) (x : Symbol) :
    Returns (g.expand g.heights depth x) (Fits g [x] (depth + b)) := by
  induction depth generalizing x with
  | zero =>
    refine (returns_finish _ x).mono fun w k hw => hw.mono ?_
    cases hx : g.heights.lookup x with
    | none => simp
    | some h => simpa using hb x h hx
  | succ depth ih =>
    refine returns_expandSymbol (fun _ hrule => hrule) fun rule _ => ⟨depth + b, by omega, ?_⟩
    exact fun y _ => ih y

theorem exists_isGreatest_height (hx : x ∈ g.nonterminals) (hh : g.heights.lookup x = some h) :
    ∃ b, IsGreatest {k | ∃ y ∈ g.nonterminals, g.heights.lookup y = some k} b := by
  have hbounded : BddAbove {k | ∃ y ∈ g.nonterminals, g.heights.lookup y = some k} := by
    refine ⟨g.rules.length, ?_⟩
    rintro k ⟨y, hy, hk⟩
    exact le_length_rules_of_isLeast ((lookup_heights_eq_some_iff hy).1 hk)
  exact ⟨_, Nat.sSup_mem ⟨h, x, hx, hh⟩ hbounded, fun k hk => le_csSup hbounded hk⟩

theorem returns_sample {P : List Symbol → Nat → Prop} {depth : Nat}
    (hword : Returns (g.sampleWord depth) P) : Returns (g.sample depth)
      fun s k => ∃ w, P w k ∧ s = String.join (w.map Symbol.name) :=
  .bind hword fun w _ hw => .pure ⟨w, hw, rfl⟩

/-- **Samples are derived words, and not much higher than they are deep.**  Whatever words are drawn,
the expansions of which a sample consists come to an end: each asks for expansions one step less deep,
and these cannot be nested forever.  If a sentence is returned, it is a word that is derived from the
start symbol, with a height that exceeds the depth by at most the largest height of a nonterminal, and
at least one word was drawn for each expansion.  At depth zero the derivation is one of the lowest. -/
theorem sampleFrom_depth (hcf : g.isContextFree = true) :
    (∀ depth x, g.expand g.heights depth x =
      g.expandSymbol (g.candidates depth) (g.expand g.heights (depth - 1)) x) ∧
    WellFounded g.Nested ∧
    ∀ depth source s later, g.sampleFrom depth source = (.ok s, later) →
      ∃ w h n, g.DerivesWith [g.start] w h n ∧ s = String.join (w.map Symbol.name) ∧
        (∃ b, IsGreatest {k | ∃ x ∈ g.nonterminals, g.heights.lookup x = some k} b ∧
          h ≤ depth + b) ∧
        source.drawn + n ≤ later.drawn ∧
        (depth = 0 → g.heights.lookup g.start = some h ∧
          IsLeast {k | ∃ w n, g.DerivesWith [g.start] w k n} h) := by
  refine ⟨expand_eq hcf, wellFounded_nested hcf, fun depth source s later hs => ?_⟩
  have hstart := g.wellFormed.start_mem
  obtain ⟨v, hv, -⟩ : ∃ v, g.Generates v ∧ s = String.join (v.map Symbol.name) := by
    have hends := ends_sample hcf depth source
    rwa [show outcome (g.sample depth) source = (.ok s, later) from hs] at hends
  obtain ⟨least, hleast⟩ := (exists_lookup_heights_iff hstart).2 ⟨v, hv⟩
  obtain ⟨b, hb⟩ := exists_isGreatest_height hstart hleast
  cases depth with
  | zero =>
    have hword : Returns (g.sampleWord 0) (Fits g [g.start] ((g.heights.lookup g.start).getD 0)) :=
      returns_finish _ _
    obtain ⟨k, hk, w, ⟨h, hle, n, hn, d⟩, rfl⟩ := returns_sample hword source s later hs
    rw [hleast, Option.getD_some] at hle
    have hmin := (lookup_heights_eq_some_iff hstart).1 hleast
    obtain rfl : h = least := Nat.le_antisymm hle (hmin.2 ⟨w, n, d⟩)
    have hgreatest : h ≤ b := hb.2 ⟨_, hstart, hleast⟩
    exact ⟨w, h, n, d, rfl, ⟨b, hb, by omega⟩, by omega, fun _ => ⟨hleast, hmin⟩⟩
  | succ depth =>
    have hbound : ∀ x h, g.heights.lookup x = some h → h ≤ b := fun x h hx =>
      hb.2 ⟨x, mem_nonterminals_of_lookup_heights hcf hx, hx⟩
    obtain ⟨k, hk, w, ⟨h, hle, n, hn, d⟩, rfl⟩ :=
      returns_sample (returns_expand hbound (depth + 1) g.start) source s later hs
    exact ⟨w, h, n, d, rfl, ⟨b, hb, hle⟩, by omega, nofun⟩

/-- A sample of `detour`, in which one word is refused. -/
theorem detour_sampleFrom_depth : detour.isContextFree = true ∧
    detour.sampleFrom 1 (.ofScript [0, 0xFFFFFFFF, 5]) = (.ok "rrr", ⟨[], 9⟩) ∧
    (∃ w h n, detour.DerivesWith [⟨"S"⟩] w h n ∧ "rrr" = String.join (w.map Symbol.name) ∧
      (∃ b, IsGreatest {k | ∃ x ∈ detour.nonterminals, detour.heights.lookup x = some k} b ∧
        h ≤ 1 + b) ∧ n ≤ 9) ∧
    detour.sampleFrom 0 (.ofScript []) = (.ok "rr", ⟨[], 5⟩) ∧
    ∃ w h n, detour.DerivesWith [⟨"S"⟩] w h n ∧ "rr" = String.join (w.map Symbol.name) ∧ n ≤ 5 ∧
      detour.heights.lookup ⟨"S"⟩ = some h := by
  have hcf : detour.isContextFree = true := by decide
  have hdeep : detour.sampleFrom 1 (.ofScript [0, 0xFFFFFFFF, 5]) = (.ok "rrr", ⟨[], 9⟩) := by rfl
  have hlow : detour.sampleFrom 0 (.ofScript []) = (.ok "rr", ⟨[], 5⟩) := by rfl
  obtain ⟨-, -, hall⟩ := sampleFrom_depth hcf
  obtain ⟨w, h, n, d, hw, hb, hn, -⟩ := hall 1 _ _ _ hdeep
  obtain ⟨w', h', n', d', hw', -, hn', hzero⟩ := hall 0 _ _ _ hlow
  have hn : 0 + n ≤ 9 := hn
  have hn' : 0 + n' ≤ 5 := hn'
  exact ⟨hcf, hdeep, ⟨w, h, n, d, hw, hb, by omega⟩, hlow, w', h', n', d', hw', by omega,
    (hzero rfl).1⟩

end Grammar
end NormalGrammar
