import NormalGrammar.Proofs.KeptParts
import NormalGrammar.Proofs.Sentences

/-!
# When samples fail

The wording of a failure blames the depth limit, but the limit never is the reason: a symbol that
derives a word has a height, and a rule of that height to finish with.  So failures tell something of the
grammar (`sampleFrom_failures`).  Whether there is one can depend on the words that are drawn only where
some reachable nonterminals derive words and others do not.
-/

namespace NormalGrammar
namespace Grammar

variable {g : Grammar}

/-- **What a failure means**, whatever words are drawn and at any depth.  It names a nonterminal that is
reachable: one without rules, or one that has rules and derives no word at all, not even the empty one.
If all nonterminals that are reachable derive words, there is no failure; if the start symbol derives
none, there always is. -/
theorem sampleFrom_failures (hcf : g.isContextFree = true) (depth : Nat) (source : WordSource) :
    (∀ x, (g.sampleFrom depth source).1 = .error (.noRules x) →
      x ∈ g.nonterminals ∧ g.IsReachable x ∧ g.rulesOf x = []) ∧
    (∀ x, (g.sampleFrom depth source).1 = .error (.neverFinishes x) →
      x ∈ g.nonterminals ∧ g.IsReachable x ∧ g.rulesOf x ≠ [] ∧ ¬ ∃ w, g.Derives [x] w) ∧
    ((∀ x ∈ g.nonterminals, g.IsReachable x → ∃ w, g.Derives [x] w) →
      ∃ s, (g.sampleFrom depth source).1 = .ok s) ∧
    ((¬ ∃ w, g.Derives [g.start] w) → ∃ e, (g.sampleFrom depth source).1 = .error e) := by
  have hends := ends_sample hcf depth source
  rw [show Sampler.outcome (g.sample depth) source = g.sampleFrom depth source from rfl] at hends
  refine ⟨fun x hx => ?_, fun x hx => ?_, fun hall => ?_, fun hnone => ?_⟩
  · rw [hx] at hends
    exact hends
  · rw [hx] at hends
    exact hends
  · cases hs : (g.sampleFrom depth source).1 with
    | ok s => exact ⟨s, rfl⟩
    | error e =>
      rw [hs] at hends
      exact absurd hends (not_isTrueOf_of_isProductive hall e)
  · cases hs : (g.sampleFrom depth source).1 with
    | error e => exact ⟨e, rfl⟩
    | ok s =>
      rw [hs] at hends
      obtain ⟨w, hw, -⟩ := hends
      exact absurd ⟨w, hw⟩ hnone

/-- A grammar in which it depends on the words drawn whether a sample fails, and how. -/
def risky : Grammar where
  start := ⟨"S"⟩
  nonterminals := [⟨"S"⟩, ⟨"U"⟩, ⟨"L"⟩]
  terminals := [⟨"l"⟩]
  rules := [.ofHead ⟨"S"⟩ [⟨"l"⟩, ⟨"U"⟩], .ofHead ⟨"S"⟩ [⟨"l"⟩, ⟨"L"⟩], .ofHead ⟨"S"⟩ [.epsilon],
    .ofHead ⟨"L"⟩ [⟨"l"⟩, ⟨"L"⟩]]
  nodup_nonterminals := by decide
  nodup_terminals := by decide
  wellFormed := defect?_eq_none_iff.1 (by decide)

/-- Two failures of `risky`, none of `detour`, where `U` is out of reach, and always one of `endless`. -/
theorem risky_sampleFrom_failures :
    (risky.isContextFree = true ∧
      (risky.sampleFrom 2 (.ofScript [0])).1 = .error (.noRules ⟨"U"⟩) ∧
      (⟨"U"⟩ ∈ risky.nonterminals ∧ risky.IsReachable ⟨"U"⟩ ∧ risky.rulesOf ⟨"U"⟩ = []) ∧
      (risky.sampleFrom 2 (.ofScript [0x60000000])).1 = .error (.neverFinishes ⟨"L"⟩) ∧
      ⟨"L"⟩ ∈ risky.nonterminals ∧ risky.IsReachable ⟨"L"⟩ ∧ risky.rulesOf ⟨"L"⟩ ≠ [] ∧
        ¬ ∃ w, risky.Derives [⟨"L"⟩] w) ∧
    (detour.isContextFree = true ∧
      (∀ x ∈ detour.nonterminals, detour.IsReachable x → ∃ w, detour.Derives [x] w) ∧
      ∀ depth source, ∃ s, (detour.sampleFrom depth source).1 = .ok s) ∧
    endless.isContextFree = true ∧ (¬ ∃ w, endless.Derives [endless.start] w) ∧
      ∀ depth source, ∃ e, (endless.sampleFrom depth source).1 = .error e := by
  refine ⟨?_, ?_, ?_⟩
  · have hcf : risky.isContextFree = true := by decide
    have hU : (risky.sampleFrom 2 (.ofScript [0])).1 = .error (.noRules ⟨"U"⟩) := by rfl
    have hL : (risky.sampleFrom 2 (.ofScript [0x60000000])).1 = .error (.neverFinishes ⟨"L"⟩) := by
      rfl
    exact ⟨hcf, hU, (sampleFrom_failures hcf 2 _).1 _ hU, hL, (sampleFrom_failures hcf 2 _).2.1 _ hL⟩
  · have hcf : detour.isContextFree = true := by decide
    have hothers : ∀ x ∈ detour.nonterminals, x ≠ ⟨"U"⟩ → detour.IsProductive x := by decide
    have hU : ¬ detour.IsReachable ⟨"U"⟩ := by decide_cbv
    have hall : ∀ x ∈ detour.nonterminals, detour.IsReachable x → detour.IsProductive x :=
      fun x hx hreach => hothers x hx fun he => hU (he ▸ hreach)
    exact ⟨hcf, hall, fun depth source => (sampleFrom_failures hcf depth source).2.2.1 hall⟩
  · have hcf : endless.isContextFree = true := by decide
    have hnone : ¬ endless.IsProductive endless.start := by decide
    exact ⟨hcf, hnone, fun depth source => (sampleFrom_failures hcf depth source).2.2.2 hnone⟩

end Grammar
end NormalGrammar
