import Mathlib.Data.List.Basic
import NormalGrammar.Normal.NormalForm

/-!
# The steps of the last stage

What the steps of the last stage do, said once for all that is proved about them.

* Isolating terminals leaves as many symbols as there were (`Workshop.length_isolate`).
* What comes of a rule: it is refused, kept, or isolated and folded (`Workshop.convert_cases`).
* All rules are converted one after the other, each followed by the rules of the helpers that were
  made for it (`Workshop.convertAll_cons_eq_ok`).
-/

namespace NormalGrammar

namespace Workshop

variable {g : Grammar} {w after last : Workshop} {rule : Rule} {rest out : List Rule}
  {right xs : List Symbol}

theorem length_isolate (g : Grammar) (w : Workshop) (xs : List Symbol) :
    (w.isolate g xs).1.length = xs.length := by
  induction xs generalizing w with
  | nil => rfl
  | cons x xs ih => exact congrArg Nat.succ (ih _)

/-- A right side is finished if it is a terminal, or two of the nonterminals so far. -/
def Finished (g : Grammar) (w : Workshop) (right : List Symbol) : Prop :=
  (∃ a ∈ g.terminals, right = [a]) ∨
    ∃ y ∈ w.nonterminals g, ∃ z ∈ w.nonterminals g, right = [y, z]

/-- What comes of a rule: it is refused, or kept because its right side is finished, or its right side
is isolated and folded. -/
theorem convert_cases (w : Workshop) (g : Grammar) (rule : Rule) :
    (rule.left.length ≠ 1 ∨
        ¬ w.Finished g rule.right ∧ (rule.right.length = 1 ∨ Symbol.epsilon ∈ rule.right)) ∧
      w.convert g rule = .error (.unsuited .normalForm rule) ∨
    ∃ x, rule.left = [x] ∧
      (w.Finished g rule.right ∧ w.convert g rule = .ok (rule.right, w) ∨
        ¬ w.Finished g rule.right ∧ rule.right.length ≠ 1 ∧ Symbol.epsilon ∉ rule.right ∧
          ∃ isolated w₁ folded w₂, w.isolate g rule.right = (isolated, w₁) ∧
            w₁.fold g isolated = (folded, w₂) ∧ w.convert g rule =
              .ok (folded, if hasSingleRule g x then w₂.learn ⟨x, folded⟩ else w₂)) := by
  cases hhead : rule.head? with
  | none =>
    refine .inl ⟨.inl fun hlength => ?_, ?_⟩
    · obtain ⟨x, hx⟩ := List.length_eq_one_iff.1 hlength
      rw [Rule.head?_eq_some_iff.2 hx] at hhead
      cases hhead
    · simp [convert, Stage.headOf, hhead, bind, Except.bind]
  | some x =>
    rw [convert, Stage.headOf_eq_ok_iff.2 hhead]
    dsimp only [bind, Except.bind]
    split
    · rename_i y hy
      by_cases ha : y ∈ g.terminals
      · refine .inr ⟨x, Rule.head?_eq_some_iff.1 hhead, .inl ⟨.inl ⟨y, ha, hy⟩, ?_⟩⟩
        simp [ha, hy]
      · refine .inl ⟨.inr ⟨?_, .inl (by simp [hy])⟩, by simp [ha]⟩
        simp [Finished, hy, ha]
    · rename_i hnot
      have hlength : rule.right.length ≠ 1 := fun h => (List.length_eq_one_iff.1 h).elim hnot
      -- elsewhere the test is just whether the right side is finished
      have hfinished :
          (rule.right.length == 2 && rule.right.all fun x => decide (x ∈ w.nonterminals g)) = true ↔
            w.Finished g rule.right := by
        rw [Bool.and_eq_true, beq_iff_eq, List.all_eq_true]
        constructor
        · rintro ⟨htwo, hall⟩
          obtain ⟨y, z, hyz⟩ := List.length_eq_two.1 htwo
          refine .inr ⟨y, of_decide_eq_true (hall y ?_), z, of_decide_eq_true (hall z ?_), hyz⟩ <;>
            simp [hyz]
        · rintro (⟨a, -, ha⟩ | ⟨y, hy, z, hz, hyz⟩)
          · exact absurd ha (hnot a)
          · rw [hyz]
            refine ⟨rfl, fun u hu => decide_eq_true ?_⟩
            rcases List.mem_pair.1 hu with rfl | rfl
            · exact hy
            · exact hz
      by_cases hf : w.Finished g rule.right
      · refine .inr ⟨x, Rule.head?_eq_some_iff.1 hhead, .inl ⟨hf, ?_⟩⟩
        rw [if_pos (hfinished.2 hf)]
      · rw [if_neg (mt hfinished.1 hf)]
        by_cases hε : Symbol.epsilon ∈ rule.right
        · refine .inl ⟨.inr ⟨hf, .inr hε⟩, if_pos ?_⟩
          exact List.any_eq_true.2 ⟨_, hε, Symbol.isEpsilon_iff.2 rfl⟩
        · refine .inr ⟨x, Rule.head?_eq_some_iff.1 hhead, .inr ⟨hf, hlength, hε, ?_⟩⟩
          rw [if_neg (by simpa using hε)]
          exact ⟨_, _, _, _, rfl, rfl, rfl⟩

/-- What is made of a rule that is not refused: its right side, or what is isolated and folded, and then
the head may be learned. -/
theorem convert_eq_ok_cases (hc : w.convert g rule = .ok (right, after)) :
    ∃ x, rule.left = [x] ∧
      (w.Finished g rule.right ∧ right = rule.right ∧ after = w ∨
        ¬ w.Finished g rule.right ∧ rule.right.length ≠ 1 ∧ Symbol.epsilon ∉ rule.right ∧
          ∃ isolated w₁ w₂, w.isolate g rule.right = (isolated, w₁) ∧
            w₁.fold g isolated = (right, w₂) ∧
            after = if hasSingleRule g x then w₂.learn ⟨x, right⟩ else w₂) := by
  rcases convert_cases w g rule with ⟨-, herror⟩ | ⟨x, hx, ⟨hf, hok⟩ | ⟨hf, hone, hε, isolated, w₁,
    folded, w₂, hisolate, hfold, hok⟩⟩
  · cases hc.symm.trans herror
  · cases hc.symm.trans hok
    exact ⟨x, hx, .inl ⟨hf, rfl, rfl⟩⟩
  · cases hc.symm.trans hok
    exact ⟨x, hx, .inr ⟨hf, hone, hε, isolated, w₁, w₂, hisolate, hfold, rfl⟩⟩

/-- Where rules are converted, the first is, then come the rules of the helpers that were made for it,
then the others. -/
theorem convertAll_cons_eq_ok (hc : (w.convertAll g (rule :: rest)).result = .ok (out, last)) :
    ∃ right after others, w.convert g rule = .ok (right, after) ∧
      (after.convertAll g rest).result = .ok (others, last) ∧
      out = ⟨rule.left, right⟩ :: (after.minted.drop w.minted.length).map Helper.rule ++ others := by
  obtain ⟨⟨right, after⟩, hone, hc⟩ := Traced.result_bind_eq_ok_iff.1 hc
  obtain ⟨_, -, hc⟩ := Traced.result_bind_eq_ok_iff.1 hc
  obtain ⟨⟨others, last'⟩, hrest, hc⟩ := Traced.result_bind_eq_ok_iff.1 hc
  obtain ⟨rfl, rfl⟩ := Prod.mk.inj (Except.ok.inj hc)
  exact ⟨right, after, others, hone, hrest, rfl⟩

end Workshop

end NormalGrammar
