import NormalGrammar.Proofs.Helpers
import NormalGrammar.Proofs.NormalSteps

/-!
# Folding right sides

What happens to the right side of a rule while it is brought into normal form.

* `Folds` says that parts of a right side were replaced by helpers for them, and `Within` what can be
  found again behind these helpers.
* `Worked` says what work on a right side does to it and to the workshop.  The lemmas `Valid.supply`,
  `Valid.isolate` and `Valid.fold` say this of the three kinds of work, and `Valid.convert` says what
  comes of a whole rule.
-/

namespace NormalGrammar

namespace Workshop

open Grammar

variable {g : Grammar} {w w' w'' after : Workshop} {known more : List Helper} {h k : Helper}
  {pattern right xs ys zs : List Symbol} {rule : Rule} {x : Symbol}

/-! ## Folds -/

/-- `Folds known xs ys` says that `ys` is `xs` with parts replaced, one after the other, by helpers
for them. -/
inductive Folds (known : List Helper) (xs : List Symbol) : List Symbol → Prop
  | refl : Folds known xs xs
  | step {front back : List Symbol} {h : Helper} : h ∈ known →
      Folds known xs (front ++ (h.pattern ++ back)) → Folds known xs (front ++ h.symbol :: back)

theorem Folds.mono (hsub : known ⊆ more) (f : Folds known xs ys) : Folds more xs ys := by
  induction f with
  | refl => exact .refl
  | step hh _ ih => exact .step (hsub hh) ih

theorem Folds.trans (f : Folds known xs ys) (f' : Folds known ys zs) : Folds known xs zs := by
  induction f' with
  | refl => exact f
  | step hh _ ih => exact .step hh ih

theorem Folds.cons (x : Symbol) (f : Folds known xs ys) : Folds known (x :: xs) (x :: ys) := by
  induction f with
  | refl => exact .refl
  | @step front back h hh _ ih => exact @Folds.step _ _ (x :: front) back h hh ih

theorem Folds.head (hx : ⟨x, pattern⟩ ∈ known) : Folds known (pattern ++ xs) (x :: xs) :=
  @Folds.step _ _ [] xs ⟨x, pattern⟩ hx .refl

/-- `Within known xs x` says that `x` is one of the symbols `xs`, or is found when helpers among them
are replaced by what they stand for. -/
inductive Within (known : List Helper) (xs : List Symbol) : Symbol → Prop
  | mem {x : Symbol} : x ∈ xs → Within known xs x
  | helper {h : Helper} {x : Symbol} : h ∈ known → Within known xs h.symbol → x ∈ h.pattern →
      Within known xs x

theorem Within.mono (hsub : known ⊆ more) (hxs : xs ⊆ ys) (hx : Within known xs x) :
    Within more ys x := by
  induction hx with
  | mem hx => exact .mem (hxs hx)
  | helper hh _ hx ih => exact .helper (hsub hh) ih hx

/-- **What was there before is found again**, behind the helpers. -/
theorem Folds.within (f : Folds known xs ys) (hx : Within known xs x) : Within known ys x := by
  induction f with
  | refl => exact hx
  | @step front back h hh _ ih =>
    clear hx
    induction ih with
    | @mem y hy =>
      rcases List.mem_append.1 hy with hy | hy
      · exact .mem (List.mem_append_left _ hy)
      · rcases List.mem_append.1 hy with hy | hy
        · exact .helper hh (.mem (List.mem_append_right _ (List.mem_cons_self ..))) hy
        · exact .mem (List.mem_append_right _ (List.mem_cons_of_mem _ hy))
    | helper hk _ hy ih => exact .helper hk ih hy

/-! ## Work on a right side -/

/-- What work on a right side does: parts of it are replaced by helpers, and all helpers that are new
are found behind what is left. -/
structure Worked (g : Grammar) (w : Workshop) (xs ys : List Symbol) (w' : Workshop) : Prop where
  valid : Valid g w'
  known_subset : w.known ⊆ w'.known
  minted_extends : w.minted <+: w'.minted
  folds : Folds w'.known xs ys
  known_new : ∀ h ∈ w'.known, h ∈ w.known ∨ h ∈ w'.minted
  minted_new : ∀ h ∈ w'.minted, h ∈ w.minted ∨ Within w'.known ys h.symbol

theorem Worked.refl (valid : Valid g w) : Worked g w xs xs w where
  valid := valid
  known_subset := List.Subset.refl _
  minted_extends := List.prefix_refl _
  folds := .refl
  known_new := fun _ hh => .inl hh
  minted_new := fun _ hh => .inl hh

theorem Worked.trans (a : Worked g w xs ys w') (b : Worked g w' ys zs w'') :
    Worked g w xs zs w'' where
  valid := b.valid
  known_subset := List.Subset.trans a.known_subset b.known_subset
  minted_extends := a.minted_extends.trans b.minted_extends
  folds := (a.folds.mono b.known_subset).trans b.folds
  known_new := by
    intro h hh
    rcases b.known_new h hh with hh | hh
    · exact (a.known_new h hh).imp_right fun hh => b.minted_extends.subset hh
    · exact .inr hh
  minted_new := by
    intro h hh
    rcases b.minted_new h hh with hh | hh
    · refine (a.minted_new h hh).imp_right fun hw => b.folds.within ?_
      exact hw.mono b.known_subset (List.Subset.refl _)
    · exact .inr hh

theorem Worked.cons (x : Symbol) (a : Worked g w xs ys w') :
    Worked g w (x :: xs) (x :: ys) w' where
  valid := a.valid
  known_subset := a.known_subset
  minted_extends := a.minted_extends
  folds := a.folds.cons x
  known_new := a.known_new
  minted_new := fun h hh => (a.minted_new h hh).imp_right fun hw =>
    hw.mono (List.Subset.refl _) (List.subset_cons_self x ys)

/-- A helper is supplied for a short part at the beginning. -/
theorem Valid.supply (valid : Valid g w) (hshort : Short g w.minted pattern)
    (hs : w.supply g pattern = (x, w')) :
    Worked g w (pattern ++ xs) (x :: xs) w' ∧ Grounded g w'.minted x := by
  unfold Workshop.supply at hs
  split at hs
  · rename_i y hy
    obtain ⟨rfl, rfl⟩ := Prod.mk.inj hs
    have hknown := mem_known_of_helperFor? hy
    exact ⟨{ Worked.refl valid with folds := .head hknown }, valid.grounded hknown⟩
  · rename_i hnone
    obtain ⟨hvalid, hminted, hsub, hknown, hnew⟩ := valid.mint hshort hnone hs
    refine ⟨⟨hvalid, hsub, ?_, .head hknown, hnew, fun h hh => ?_⟩, hvalid.grounded hknown⟩
    · rw [hminted]
      exact List.prefix_append ..
    · rw [hminted] at hh
      refine (List.mem_append.1 hh).imp_right fun hh => .mem ?_
      rw [List.mem_singleton.1 hh]
      exact List.mem_cons_self ..

/-- Terminals make way for helpers; what is left is grounded. -/
theorem Valid.isolate (valid : Valid g w) (hxs : ∀ x ∈ xs, x ∈ g.nonterminals ∨ x ∈ g.terminals)
    (hi : w.isolate g xs = (ys, w')) :
    Worked g w xs ys w' ∧ ∀ y ∈ ys, Grounded g w'.minted y := by
  induction xs generalizing w ys with
  | nil =>
    obtain ⟨rfl, rfl⟩ := Prod.mk.inj hi
    exact ⟨.refl valid, nofun⟩
  | cons x xs ih =>
    -- the first symbol leads to a workshop `w₁`, from which the others are isolated
    obtain ⟨y, w₁, hy, hwork, hgrounded⟩ : ∃ y w₁,
        (if g.isTerminal x then w.supply g [x] else (x, w)) = (y, w₁) ∧
          Worked g w (x :: xs) (y :: xs) w₁ ∧ Grounded g w₁.minted y := by
      by_cases hx : x ∈ g.terminals
      · rw [if_pos (isTerminal_iff.2 hx)]
        exact ⟨_, _, rfl, valid.supply (.inl ⟨x, hx, rfl⟩) rfl⟩
      · rw [if_neg (mt isTerminal_iff.1 hx)]
        exact ⟨x, w, rfl, .refl valid, .declared ((hxs x (List.mem_cons_self ..)).resolve_right hx)⟩
    rw [Workshop.isolate, hy] at hi
    obtain ⟨rfl, rfl⟩ := Prod.mk.inj hi
    obtain ⟨hwork', hgrounded'⟩ :=
      ih hwork.valid (fun z hz => hxs z (List.mem_cons_of_mem _ hz)) rfl
    refine ⟨hwork.trans (hwork'.cons y), List.forall_mem_cons.2 ⟨?_, hgrounded'⟩⟩
    exact hgrounded.mono hwork'.minted_extends.subset

/-- Two or more grounded symbols are folded into two. -/
theorem Valid.fold (valid : Valid g w) (hxs : ∀ x ∈ xs, Grounded g w.minted x)
    (hlength : 2 ≤ xs.length) (hf : w.fold g xs = (ys, w')) :
    Worked g w xs ys w' ∧ ∃ y z, Grounded g w'.minted y ∧ Grounded g w'.minted z ∧ ys = [y, z] := by
  induction xs generalizing ys w' with
  | nil => exact absurd hlength (by decide)
  | cons x xs ih =>
    match xs, hlength with
    | [y], _ =>
      obtain ⟨rfl, rfl⟩ := Prod.mk.inj hf
      exact ⟨.refl valid, x, y, hxs x (by simp), hxs y (by simp), rfl⟩
    | y :: z :: rest, _ =>
      generalize hpair : w.fold g (y :: z :: rest) = folded at hf
      obtain ⟨pair, w₁⟩ := folded
      obtain ⟨hwork, a, b, ha, hb, rfl⟩ :=
        ih (fun x hx => hxs x (List.mem_cons_of_mem _ hx)) (by simp) hpair
      generalize hsupply : w₁.supply g [a, b] = supplied at hf
      obtain ⟨k, w₂⟩ := supplied
      obtain ⟨hwork', hk⟩ : Worked g w₁ ([a, b] ++ []) [k] w₂ ∧ Grounded g w₂.minted k :=
        hwork.valid.supply (.inr ⟨a, b, ha, hb, rfl⟩) hsupply
      rw [Workshop.fold, hpair] at hf
      dsimp only at hf
      rw [hsupply] at hf
      obtain ⟨rfl, rfl⟩ := Prod.mk.inj hf
      have hall : Worked g w (y :: z :: rest) [k] w₂ := hwork.trans hwork'
      have hx := (hxs x (List.mem_cons_self ..)).mono hall.minted_extends.subset
      exact ⟨hall.cons x, x, k, hx, hk, rfl⟩

/-! ## Converting rules -/

/-- What the conversion of a rule does: parts of its right side are replaced by helpers until it is
short, and the symbol of the rule may become a helper. -/
structure Converted (g : Grammar) (w : Workshop) (rule : Rule) (right : List Symbol)
    (after : Workshop) : Prop where
  valid : Valid g after
  known_subset : w.known ⊆ after.known
  minted_extends : w.minted <+: after.minted
  folds : Folds after.known rule.right right
  short : Short g after.minted right
  known_new : ∀ h ∈ after.known,
    h ∈ w.known ∨ h ∈ after.minted ∨ (rule.left = [h.symbol] ∧ right = h.pattern)
  minted_new : ∀ h ∈ after.minted, h ∈ w.minted ∨ Within after.known right h.symbol
  normal_kept : g.isNormal rule = true → right = rule.right

/-- Work on a right side that makes it short, and leaves it alone if it is so already. -/
theorem Worked.converted (a : Worked g w rule.right right after)
    (hshort : Short g after.minted right) (hnormal : g.isNormal rule = true → right = rule.right) :
    Converted g w rule right after where
  valid := a.valid
  known_subset := a.known_subset
  minted_extends := a.minted_extends
  folds := a.folds
  short := hshort
  known_new := fun h hh => (a.known_new h hh).imp_right .inl
  minted_new := a.minted_new
  normal_kept := hnormal

/-- The head of a rule that was folded may be learned. -/
theorem Converted.learn (c : Converted g w rule right after) (hleft : rule.left = [x])
    (hx : x ∈ g.nonterminals) :
    Converted g w rule right (if hasSingleRule g x then after.learn ⟨x, right⟩ else after) := by
  split
  · rename_i hsingle
    exact
      { valid := c.valid.learn hx hsingle c.short
        known_subset := List.Subset.trans c.known_subset known_subset_learn
        minted_extends := by simpa using c.minted_extends
        folds := c.folds.mono known_subset_learn
        short := by simpa using c.short
        known_new := by
          intro h hh
          rw [minted_learn]
          rcases mem_known_learn hh with hh | rfl
          · exact c.known_new h hh
          · exact .inr (.inr ⟨hleft, rfl⟩)
        minted_new := by
          intro h hh
          rw [minted_learn] at hh
          exact (c.minted_new h hh).imp_right fun hw =>
            hw.mono known_subset_learn (List.Subset.refl _)
        normal_kept := c.normal_kept }
  · exact c

theorem declared_of_two_le (hrule : rule ∈ g.rules) (hlength : 2 ≤ rule.right.length) :
    ∀ y ∈ rule.right, y ∈ g.nonterminals ∨ y ∈ g.terminals := by
  have hε : rule.right ≠ [Symbol.epsilon] := by
    intro h
    rw [h] at hlength
    exact absurd hlength (by decide)
  exact fun y hy => right_declared hrule hε hy

theorem Valid.isolate_fold (valid : Valid g w) (hrule : rule ∈ g.rules)
    (hlength : 2 ≤ rule.right.length) (hnormal : g.isNormal rule = false) {isolated : List Symbol}
    (hi : w.isolate g rule.right = (isolated, w')) (hf : w'.fold g isolated = (right, after)) :
    Converted g w rule right after := by
  have hlen := length_isolate g w rule.right
  rw [hi] at hlen
  obtain ⟨hwork, hgrounded⟩ := valid.isolate (declared_of_two_le hrule hlength) hi
  obtain ⟨hwork', hshort⟩ := hwork.valid.fold hgrounded (hlen ▸ hlength) hf
  refine (hwork.trans hwork').converted (.inr hshort) fun h => ?_
  rw [hnormal] at h
  cases h

theorem short_of_isNormal {minted : List Helper} (h : g.isNormal rule = true) :
    Short g minted rule.right := by
  obtain ⟨x, -, ⟨a, ha, rfl⟩ | ⟨y, hy, z, hz, rfl⟩⟩ := isNormal_iff.1 h
  · exact .inl ⟨a, ha, rfl⟩
  · exact .inr ⟨y, z, .declared hy, .declared hz, rfl⟩

/-- The right side of a rule is finished just when the rule is in normal form, since no new helper
stands in it. -/
theorem Valid.finished_iff (valid : Valid g w) (hrule : rule ∈ g.rules) (hleft : rule.left = [x])
    (hx : x ∈ g.nonterminals) : w.Finished g rule.right ↔ g.isNormal rule = true := by
  have hold : ∀ y ∈ w.nonterminals g, y ∈ g.nonterminals ∨ y ∈ g.terminals → y ∈ g.nonterminals := by
    intro y hy hd
    obtain hy | ⟨k, hk, rfl⟩ := mem_nonterminals.1 hy
    · exact hy
    · exact hd.resolve_right (valid.minted_fresh k hk).2
  obtain ⟨left, right⟩ := rule
  obtain rfl : left = [x] := hleft
  rw [isNormal_iff]
  constructor
  · rintro (⟨a, ha, rfl⟩ | ⟨y, hy, z, hz, rfl⟩)
    · exact ⟨x, hx, .inl ⟨a, ha, rfl⟩⟩
    · have hdeclared := declared_of_two_le hrule (Nat.le_refl 2)
      have hy' : y ∈ g.nonterminals := hold y hy (hdeclared y (by simp))
      have hz' : z ∈ g.nonterminals := hold z hz (hdeclared z (by simp))
      exact ⟨x, hx, .inr ⟨y, hy', z, hz', rfl⟩⟩
  · rintro ⟨u, -, ⟨a, ha, h⟩ | ⟨y, hy, z, hz, h⟩⟩
    · exact .inl ⟨a, ha, congrArg Rule.right h⟩
    · exact .inr ⟨y, List.mem_append_left _ hy, z, List.mem_append_left _ hz, congrArg Rule.right h⟩

/-- What is converted is in normal form already, or it is isolated and folded, and then the head may
be learned. -/
theorem Valid.convert_eq_ok (valid : Valid g w) (hrule : rule ∈ g.rules) (hleft : rule.left = [x])
    (hx : x ∈ g.nonterminals) (hc : w.convert g rule = .ok (right, after)) :
    (g.isNormal rule = true ∧ right = rule.right ∧ after = w) ∨
      g.isNormal rule = false ∧ 2 ≤ rule.right.length ∧ ∃ isolated w₁ w₂,
        w.isolate g rule.right = (isolated, w₁) ∧ w₁.fold g isolated = (right, w₂) ∧
        after = if hasSingleRule g x then w₂.learn ⟨x, right⟩ else w₂ := by
  obtain ⟨u, hu, ⟨hfinished, hright, hafter⟩ | ⟨hnot, hone, -, isolated, w₁, w₂, hi, hf, hafter⟩⟩ :=
    convert_eq_ok_cases hc
  · exact .inl ⟨(valid.finished_iff hrule hleft hx).1 hfinished, hright, hafter⟩
  · obtain rfl : u = x := List.singleton_inj.1 (hu.symm.trans hleft)
    rw [valid.finished_iff hrule hleft hx, Bool.not_eq_true] at hnot
    have hnil := List.length_pos_iff.2 (right_ne_nil hrule)
    exact .inr ⟨hnot, by omega, isolated, w₁, w₂, hi, hf, hafter⟩

/-- Conversion does what it should to the rules of a context free grammar. -/
theorem Valid.convert (valid : Valid g w) (hcf : g.isContextFree = true) (hrule : rule ∈ g.rules)
    (hc : w.convert g rule = .ok (right, after)) : Converted g w rule right after := by
  obtain ⟨x, hx, hleft⟩ := isContextFree_iff.1 hcf rule hrule
  obtain ⟨hnormal, rfl, rfl⟩ | ⟨hnormal, hlength, isolated, w₁, w₂, hi, hf, rfl⟩ :=
    valid.convert_eq_ok hrule hleft hx hc
  · exact (Worked.refl valid).converted (short_of_isNormal hnormal) fun _ => rfl
  · exact (valid.isolate_fold hrule hlength hnormal hi hf).learn hleft hx

/-! ## The helpers that a grammar brings along -/

theorem Valid.empty (g : Grammar) : Valid g ⟨[], [], 0⟩ :=
  ⟨nofun, nofun, List.nodup_nil, nofun, nofun, nofun⟩

/-- Only nonterminals of a context free grammar have rules, so the helpers that it brings along are
valid. -/
theorem valid_ofGrammar (hcf : g.isContextFree = true) : Valid g (ofGrammar g) := by
  refine ofGrammar_induction (.empty g) fun w k ⟨hsingle, hrule, hnormal⟩ valid => ?_
  have hk := mem_nonterminals_of_mem_rulesOf hcf (ofHead_mem_rulesOf.2 hrule)
  exact valid.learn hk hsingle (short_of_isNormal hnormal)

end Workshop

end NormalGrammar
