import NormalGrammar.Grammar.Basic

/-!
# Rewriting sequences of symbols

A rule rewrites any place of a sequence where its left side stands; the right side `ε` stands for
nothing at all.  This is the meaning of rules of every shape.
-/

namespace NormalGrammar

/-- What a rule puts in the place of its left side. -/
def Rule.replacement (rule : Rule) : List Symbol := if rule.isEpsilon then [] else rule.right

namespace Grammar

/-- One step: a rule is applied at one place. -/
inductive Step (g : Grammar) : List Symbol → List Symbol → Prop
  | apply {rule : Rule} (hrule : rule ∈ g.rules) (front back : List Symbol) :
      Step g (front ++ rule.left ++ back) (front ++ rule.replacement ++ back)

/-- Any number of steps. -/
inductive Rewrites (g : Grammar) : List Symbol → List Symbol → Prop
  | refl (xs : List Symbol) : Rewrites g xs xs
  | tail {xs ys zs : List Symbol} : Rewrites g xs ys → Step g ys zs → Rewrites g xs zs

variable {g : Grammar}

theorem Rewrites.trans {xs ys zs : List Symbol} (h : g.Rewrites xs ys) (k : g.Rewrites ys zs) :
    g.Rewrites xs zs := by
  induction k with
  | refl => exact h
  | tail _ step ih => exact ih.tail step

/-- A step can be made between other symbols. -/
theorem Step.between {xs ys : List Symbol} (h : g.Step xs ys) (front back : List Symbol) :
    g.Step (front ++ xs ++ back) (front ++ ys ++ back) := by
  obtain ⟨hrule, f, b⟩ := h
  have := Step.apply hrule (front ++ f) (b ++ back)
  simpa [List.append_assoc] using this

end Grammar
end NormalGrammar
