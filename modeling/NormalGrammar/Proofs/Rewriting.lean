import NormalGrammar.Language.Rewriting
import NormalGrammar.Proofs.Simulation

/-!
# Derivations and rewriting

In a context free grammar a sequence derives a word just when steps of rewriting lead from the one to
the other (`derives_iff_rewrites`), so that what is proved of derivations holds of rewriting.
-/

namespace NormalGrammar
namespace Grammar

variable {g : Grammar} {rule : Rule} {x : Symbol} {xs ys w : List Symbol}

theorem Rewrites.between (h : g.Rewrites xs ys) (front back : List Symbol) :
    g.Rewrites (front ++ xs ++ back) (front ++ ys ++ back) := by
  induction h with
  | refl => exact .refl _
  | tail _ step ih => exact ih.tail (step.between front back)

/-! ## From derivations to rewriting -/

/-- What a rule puts in the place of its left side derives what the right side derives. -/
theorem derives_replacement_iff : g.Derives rule.replacement w ↔ g.Derives rule.right w := by
  unfold Rule.replacement
  split
  · rename_i hε
    rw [Rule.isEpsilon_iff.1 hε, derives_nil_iff, derives_epsilon_iff]
  · rfl

/-- A derivation can be carried out step by step. -/
theorem DerivesWith.rewrites {k n : Nat} (d : g.DerivesWith xs w k n)
    (hxs : Symbol.epsilon ∉ xs) : g.Rewrites xs w := by
  induction d with
  | nil => exact .refl []
  | epsilon _ _ => exact absurd (List.mem_cons_self ..) hxs
  | @terminal a xs w _ _ _ _ ih =>
    have hrest : Symbol.epsilon ∉ xs := fun h => hxs (List.mem_cons_of_mem _ h)
    simpa using (ih hrest).between [a] []
  | @expand x rule xs v w _ _ _ _ hrule dr _ ihr ih =>
    have hrest : Symbol.epsilon ∉ xs := fun h => hxs (List.mem_cons_of_mem _ h)
    obtain ⟨hmem, hleft⟩ := mem_rulesOf_iff_left.1 hrule
    -- first the rule is applied, then its right side is rewritten, then what stands behind it
    have hstep : g.Step (x :: xs) (rule.replacement ++ xs) := by
      simpa [hleft] using Step.apply hmem [] xs
    have hright : g.Rewrites rule.replacement v := by
      by_cases hε : rule.right = [Symbol.epsilon]
      · obtain rfl := derives_epsilon_iff.1 ⟨_, _, hε ▸ dr⟩
        rw [Rule.replacement, if_pos (Rule.isEpsilon_iff.2 hε)]
        exact .refl []
      · rw [Rule.replacement, if_neg (mt Rule.isEpsilon_iff.1 hε)]
        exact ihr fun h => ne_epsilon_of_mem_right hmem hε h rfl
    have hfirst : g.Rewrites (rule.replacement ++ xs) (v ++ xs) := by
      simpa using hright.between [] xs
    have hlast : g.Rewrites (v ++ xs) (v ++ w) := by
      simpa using (ih hrest).between v []
    exact ((Rewrites.refl _).tail hstep).trans (hfirst.trans hlast)

/-! ## And back -/

/-- What is derived after a step was derived before. -/
theorem Step.derives (hcf : g.isContextFree = true) (step : g.Step xs ys) (d : g.Derives ys w) :
    g.Derives xs w := by
  obtain ⟨hrule, front, back⟩ := step
  rename_i rule
  obtain ⟨x, -, hleft⟩ := isContextFree_iff.1 hcf rule hrule
  rw [List.append_assoc] at d ⊢
  obtain ⟨u, v, rfl, du, dv⟩ := derives_append_iff.1 d
  obtain ⟨v₁, v₂, rfl, d₁, d₂⟩ := derives_append_iff.1 dv
  have dx : g.Derives rule.left v₁ := by
    rw [hleft]
    exact (derives_replacement_iff.1 d₁).of_rule (mem_rulesOf_iff_left.2 ⟨hrule, hleft⟩)
  exact derives_append_iff.2 ⟨u, _, rfl, du, derives_append_iff.2 ⟨v₁, v₂, rfl, dx, d₂⟩⟩

theorem Rewrites.derives (hcf : g.isContextFree = true) (h : g.Rewrites xs ys)
    (d : g.Derives ys w) : g.Derives xs w := by
  induction h with
  | refl => exact d
  | tail _ step ih => exact ih (step.derives hcf d)

theorem derives_self (hw : ∀ a ∈ w, a ∈ g.terminals) : g.Derives w w := by
  induction w with
  | nil => exact derives_nil_iff.2 rfl
  | cons a w ih =>
    obtain ⟨ha, hrest⟩ := List.forall_mem_cons.1 hw
    exact derives_cons_iff.2 ⟨[a], w, rfl, derives_terminal ha, ih hrest⟩

/-- **Deriving is rewriting**: a sequence derives the words of terminals that it can be rewritten
to. -/
theorem derives_iff_rewrites (hcf : g.isContextFree = true) (hxs : Symbol.epsilon ∉ xs) :
    g.Derives xs w ↔ g.Rewrites xs w ∧ ∀ a ∈ w, a ∈ g.terminals := by
  constructor
  · rintro ⟨k, n, d⟩
    exact ⟨d.rewrites hxs, d.forall_mem_terminals⟩
  · rintro ⟨h, hw⟩
    exact h.derives hcf (derives_self hw)

end Grammar
end NormalGrammar
