import Mathlib.Data.List.Infix
import Mathlib.Logic.Function.Basic
import NormalGrammar.Proofs.Economy
import NormalGrammar.Proofs.NormalForm

/-!
# What a workshop goes through

While rules are brought into normal form, helpers are looked up by their right sides (`helperFor?`) and
right sides by their helpers (`patternOf?`).  These are two tables, and here they are followed from the
first entry to the last.

* Learning a helper writes both tables or none (`learn_cases`).  So they are inverse to each other
  whatever work is done (`kept_inverse`), and an entry stays (`kept_retains`).
* `history` lists the workshops of a run, also of one that fails.  Each is what the work leaves that is
  done so far: helpers are learned and terminals isolated from the first on, symbols are folded from the
  last on.  From one workshop to the next a single helper is learned or made, or nothing happens
  (`Move`, `history_leads`), so none is left out.
* `known_helpers_settled` says what becomes of the entries.  The symbol of a helper has one rule in the
  end, that of the helper.  This is not clear when the entry is made, for other rules are still to come
  then; but none of them is for a new helper, and a symbol with a single rule has had it
  (`rulesOf_known`).
-/

namespace NormalGrammar

namespace Workshop

open Grammar

variable {g h : Grammar} {w w' w₁ w₂ v after last : Workshop} {ws ws' : List Workshop} {k : Helper}
  {rule : Rule} {pattern right : List Symbol} {x : Symbol}
  {P : Workshop → Prop}

/-! ## Two tables -/

/-- A helper behind others writes the table of what is found by `f`, where that has no entry yet. -/
theorem map_find?_concat {β γ : Type} [DecidableEq β] (f : Helper → β) (r : Helper → γ)
    (hs : List Helper) (k : Helper)
    (hnew : (hs.find? fun m => decide (f m = f k)).map r = none) :
    (fun b => ((hs ++ [k]).find? fun m => decide (f m = b)).map r) =
      Function.update (fun b => (hs.find? fun m => decide (f m = b)).map r) (f k) (some (r k)) := by
  funext b
  rw [List.find?_append]
  by_cases hb : b = f k
  · subst hb
    rw [Option.map_eq_none_iff] at hnew
    simp [hnew]
  · have hother : ([k].find? fun m => decide (f m = b)) = none := by simp [Ne.symm hb]
    rw [hother, Option.or_none, Function.update_of_ne hb]

/-- **Learning writes both tables**, or none: a helper is entered if neither its right side nor its
symbol is entered yet. -/
theorem learn_cases (w : Workshop) (k : Helper) : w.learn k = w ∨
    w.helperFor? k.pattern = none ∧ w.patternOf? k.symbol = none ∧
      (w.learn k).helperFor? = Function.update w.helperFor? k.pattern (some k.symbol) ∧
      (w.learn k).patternOf? = Function.update w.patternOf? k.symbol (some k.pattern) := by
  by_cases hknown : (w.patternOf? k.symbol).isSome || (w.helperFor? k.pattern).isSome
  · exact .inl (if_pos hknown)
  · have hlearn : (w.learn k).known = w.known ++ [k] := by rw [learn, if_neg hknown]
    rw [Bool.or_eq_true, not_or, Option.not_isSome_iff_eq_none, Option.not_isSome_iff_eq_none]
      at hknown
    obtain ⟨hpattern, hhelper⟩ := hknown
    refine .inr ⟨hhelper, hpattern, ?_, ?_⟩
    · have hupdate := map_find?_concat Helper.pattern Helper.symbol w.known k hhelper
      rwa [← hlearn] at hupdate
    · have hupdate := map_find?_concat Helper.symbol Helper.pattern w.known k hpattern
      rwa [← hlearn] at hupdate

/-- The two tables are inverse to each other. -/
def Inverse (w : Workshop) : Prop :=
  ∀ pattern x, w.helperFor? pattern = some x ↔ w.patternOf? x = some pattern

/-- What is entered in the tables of `w` is entered in those of `w'`. -/
structure Retains (w w' : Workshop) : Prop where
  helperFor? : ∀ pattern x, w.helperFor? pattern = some x → w'.helperFor? pattern = some x
  patternOf? : ∀ pattern x, w.patternOf? x = some pattern → w'.patternOf? x = some pattern

theorem Retains.refl (w : Workshop) : Retains w w := ⟨fun _ _ h => h, fun _ _ h => h⟩

/-- Learning keeps the tables inverse: both entries are new, so neither was the value of another. -/
theorem Inverse.learn (hw : Inverse w) (k : Helper) : Inverse (w.learn k) := by
  rcases learn_cases w k with hsame | ⟨hhelper, hpattern, hhelpers, hpatterns⟩
  · rwa [hsame]
  · intro pattern x
    rw [hhelpers, hpatterns]
    by_cases hp : pattern = k.pattern
    · by_cases hx : x = k.symbol
      · simp [hp, hx]
      · have hold : w.patternOf? x ≠ some k.pattern := by
          rw [Ne, ← hw, hhelper]
          nofun
        simp [hp, Function.update_of_ne hx, hold, Ne.symm hx]
    · by_cases hx : x = k.symbol
      · have hold : w.helperFor? pattern ≠ some k.symbol := by
          rw [Ne, hw, hpattern]
          nofun
        simp [hx, Function.update_of_ne hp, hold, Ne.symm hp]
      · rw [Function.update_of_ne hp, Function.update_of_ne hx]
        exact hw pattern x

theorem Retains.learn (hw : Retains w w') (k : Helper) : Retains w (w'.learn k) := by
  rcases learn_cases w' k with hsame | ⟨hhelper, hpattern, hhelpers, hpatterns⟩
  · rwa [hsame]
  · refine ⟨fun pattern x hx => ?_, fun pattern x hx => ?_⟩
    · have hold := hw.helperFor? pattern x hx
      have hne : pattern ≠ k.pattern := by
        rintro rfl
        cases hhelper.symm.trans hold
      rw [hhelpers, Function.update_of_ne hne, hold]
    · have hold := hw.patternOf? pattern x hx
      have hne : x ≠ k.symbol := by
        rintro rfl
        cases hpattern.symm.trans hold
      rw [hpatterns, Function.update_of_ne hne, hold]

/-- **The tables are inverse to each other, whatever work is done.** -/
theorem kept_inverse (g : Grammar) : Kept g Inverse where
  learn := fun _ k hw => hw.learn k
  mint := fun _ _ hw => hw.learn _

/-- **What is entered stays**, whatever work is done. -/
theorem kept_retains (g : Grammar) (w : Workshop) : Kept g (Retains w) where
  learn := fun _ k hw => hw.learn k
  mint := fun _ _ hw => ⟨(hw.learn _).helperFor?, (hw.learn _).patternOf?⟩

/-! ## Moves -/

/-- What may happen to a workshop at a time: nothing, or a helper is learned or made. -/
inductive Move (g : Grammar) : Workshop → Workshop → Prop
  | stay (w : Workshop) : Move g w w
  | learn (w : Workshop) (k : Helper) : Move g w (w.learn k)
  | mint (w : Workshop) (pattern : List Symbol) : Move g w (w.mint g pattern).2

theorem Kept.move (kept : Kept g P) (m : Move g w w') (hw : P w) : P w' := by
  cases m with
  | stay => exact hw
  | learn k => exact kept.learn w k hw
  | mint pattern => exact kept.mint w pattern hw

theorem move_supply (g : Grammar) (w : Workshop) (pattern : List Symbol) :
    Move g w (w.supply g pattern).2 := by
  unfold supply
  split
  · exact .stay w
  · exact .mint w pattern

/-- `Leads g w ws w'` says that moves lead from `w` through the workshops `ws` to `w'`. -/
inductive Leads (g : Grammar) : Workshop → List Workshop → Workshop → Prop
  | refl (w : Workshop) : Leads g w [w] w
  | head {w v w' : Workshop} {ws : List Workshop} : Move g w v → Leads g v ws w' →
      Leads g w (w :: ws) w'

theorem Leads.append (l : Leads g w ws w₁) (l' : Leads g w₁ ws' w₂) : Leads g w (ws ++ ws') w₂ := by
  induction l with
  | refl w => exact .head (.stay w) l'
  | head m _ ih => exact .head m (ih l')

theorem Leads.snoc (l : Leads g w ws w₁) (m : Move g w₁ w₂) : Leads g w (ws ++ [w₂]) w₂ := by
  induction l with
  | refl w => exact .head m (.refl w₂)
  | head m' _ ih => exact .head m' (ih m)

/-- What moves keep holds all the way. -/
theorem Leads.forall_mem (l : Leads g w ws w') (kept : Kept g P) (hw : P w) : ∀ v ∈ ws, P v := by
  induction l with
  | refl w => simpa using hw
  | head m _ ih => exact List.forall_mem_cons.2 ⟨hw, ih (kept.move m hw)⟩

theorem Leads.mem_end (l : Leads g w ws w') : w' ∈ ws := by
  induction l with
  | refl w => exact List.mem_singleton_self w
  | head _ _ ih => exact List.mem_cons_of_mem _ ih

/-- **Entries are only added** on the way. -/
theorem Leads.pairwise_retains (l : Leads g w ws w') : ws.Pairwise Retains := by
  induction l with
  | refl w => exact List.pairwise_singleton ..
  | @head w v w' ws m l ih =>
    have hv : Retains w v := (kept_retains g w).move m (.refl w)
    exact List.pairwise_cons.2 ⟨l.forall_mem (kept_retains g w) hv, ih⟩

theorem Leads.retains_end (l : Leads g w ws w') : ∀ v ∈ ws, Retains v w' := by
  induction l with
  | refl w => simpa using Retains.refl w
  | @head w v w' ws m l ih =>
    have hv : Retains w v := (kept_retains g w).move m (.refl w)
    exact List.forall_mem_cons.2 ⟨l.forall_mem (kept_retains g w) hv _ l.mem_end, ih⟩

/-! ## The workshops of a run -/

/-- The workshops while helpers are learned one after the other. -/
def learning (w : Workshop) (ks : List Helper) : List Workshop := ks.inits.map (·.foldl learn w)

/-- The workshops while terminals are isolated: more and more of the first symbols are done. -/
def isolating (g : Grammar) (w : Workshop) (xs : List Symbol) : List Workshop :=
  xs.inits.map fun front => (w.isolate g front).2

/-- The workshops while symbols are folded: more and more of the last symbols are done. -/
def folding (g : Grammar) (w : Workshop) (xs : List Symbol) : List Workshop :=
  xs.tails.reverse.map fun back => (w.fold g back).2

instance (g : Grammar) (w : Workshop) (right : List Symbol) : Decidable (w.Finished g right) :=
  inferInstanceAs (Decidable (_ ∨ _))

/-- The workshops while a rule is converted.  If it is refused or kept, nothing happens. -/
def converting (g : Grammar) (w : Workshop) (rule : Rule) : List Workshop :=
  match w.convert g rule with
  | .error _ => [w]
  | .ok (_, after) =>
    if w.Finished g rule.right then
      [w]
    else
      let (isolated, w₁) := w.isolate g rule.right
      isolating g w rule.right ++ folding g w₁ isolated ++ [after]

/-- The workshops while rules are converted, up to the first that is refused. -/
def convertingAll (g : Grammar) : Workshop → List Rule → List Workshop
  | w, [] => [w]
  | w, rule :: rest => converting g w rule ++
    match w.convert g rule with
    | .error _ => []
    | .ok (_, after) => convertingAll g after rest

/-- All workshops on the way to normal form, the first of which knows nothing. -/
def history (g : Grammar) : List Workshop :=
  learning ⟨[], [], 0⟩ (brought g) ++ convertingAll g (ofGrammar g) g.rules

theorem learning_leads (g : Grammar) (w : Workshop) (ks : List Helper) :
    Leads g w (learning w ks) (ks.foldl learn w) := by
  induction ks generalizing w with
  | nil => exact .refl w
  | cons k ks ih =>
    have hcons : learning w (k :: ks) = w :: learning (w.learn k) ks := by
      simp [learning, List.map_map, Function.comp_def]
    rw [hcons]
    exact .head (.learn w k) (ih (w.learn k))

theorem isolating_leads (g : Grammar) (w : Workshop) (xs : List Symbol) :
    Leads g w (isolating g w xs) (w.isolate g xs).2 := by
  induction xs generalizing w with
  | nil => exact .refl w
  | cons x xs ih =>
    -- what the first symbol leads to, and from there the others
    obtain ⟨y, w₁, hfirst, m⟩ : ∃ y w₁,
        (if g.isTerminal x then w.supply g [x] else (x, w)) = (y, w₁) ∧ Move g w w₁ := by
      split
      · exact ⟨_, _, rfl, move_supply g w [x]⟩
      · exact ⟨_, _, rfl, .stay w⟩
    have hrest : ∀ front, (w.isolate g (x :: front)).2 = (w₁.isolate g front).2 := by
      intro front
      rw [isolate, hfirst]
    have hcons : isolating g w (x :: xs) = w :: isolating g w₁ xs := by
      rw [isolating, List.inits_cons, List.map_cons, List.map_map]
      exact congrArg (w :: ·) (List.map_congr_left fun front _ => hrest front)
    rw [hcons, hrest]
    exact .head m (ih w₁)

theorem move_fold (g : Grammar) (w : Workshop) (x : Symbol) (xs : List Symbol) :
    Move g (w.fold g xs).2 (w.fold g (x :: xs)).2 := by
  match xs with
  | [] | [_] => exact .stay w
  | y :: z :: rest =>
    rw [fold]
    exact move_supply g _ _

theorem folding_leads (g : Grammar) (w : Workshop) (xs : List Symbol) :
    Leads g w (folding g w xs) (w.fold g xs).2 := by
  induction xs with
  | nil => exact .refl w
  | cons x xs ih =>
    have hcons : folding g w (x :: xs) = folding g w xs ++ [(w.fold g (x :: xs)).2] := by
      simp [folding]
    rw [hcons]
    exact ih.snoc (move_fold g w x xs)

/-- Converting a rule goes by moves, to what is left of the workshop. -/
theorem converting_leads (hc : w.convert g rule = .ok (right, after)) :
    Leads g w (converting g w rule) after := by
  obtain ⟨x, -, ⟨hfinished, -, rfl⟩ | ⟨hnot, -, -, isolated, w₁, w₂, hi, hf, rfl⟩⟩ :=
    convert_eq_ok_cases hc
  · simp only [converting, hc, if_pos hfinished]
    exact .refl _
  · simp only [converting, hc, if_neg hnot, hi]
    have hisolating := isolating_leads g w rule.right
    have hfolding := folding_leads g w₁ isolated
    rw [hi] at hisolating
    rw [hf] at hfolding
    refine (hisolating.append hfolding).snoc ?_
    split
    · exact .learn w₂ _
    · exact .stay w₂

theorem converting_of_error {e : NormalizationError} (hc : w.convert g rule = .error e) :
    converting g w rule = [w] := by
  simp only [converting, hc]

/-- Converting all rules goes by moves, whether or not it comes to an end. -/
theorem convertingAll_leads (g : Grammar) (w : Workshop) (rules : List Rule) :
    ∃ w', Leads g w (convertingAll g w rules) w' ∧
      ∀ out last, (w.convertAll g rules).result = .ok (out, last) → last = w' := by
  induction rules generalizing w with
  | nil =>
    refine ⟨w, .refl w, fun out last hc => ?_⟩
    exact (Prod.mk.inj (Except.ok.inj hc)).2.symm
  | cons rule rest ih =>
    cases hc : w.convert g rule with
    | error e =>
      refine ⟨w, ?_, fun out last hall => ?_⟩
      · simp only [convertingAll, hc, List.append_nil, converting_of_error hc]
        exact .refl w
      · obtain ⟨right, after, others, hone, -⟩ := convertAll_cons_eq_ok hall
        cases hc.symm.trans hone
    | ok converted =>
      obtain ⟨right, after⟩ := converted
      obtain ⟨w', hleads, hend⟩ := ih after
      refine ⟨w', ?_, fun out last hall => ?_⟩
      · simp only [convertingAll, hc]
        exact (converting_leads hc).append hleads
      · obtain ⟨right', after', others, hone, hrest, -⟩ := convertAll_cons_eq_ok hall
        cases hc.symm.trans hone
        exact hend others last hrest

/-- **The history goes by moves**, from a workshop that knows nothing to what is left in the end. -/
theorem history_leads (g : Grammar) : ∃ w', Leads g ⟨[], [], 0⟩ (history g) w' ∧
    ∀ out last, ((ofGrammar g).convertAll g g.rules).result = .ok (out, last) → last = w' := by
  obtain ⟨w', hleads, hend⟩ := convertingAll_leads g (ofGrammar g) g.rules
  exact ⟨w', (learning_leads g ⟨[], [], 0⟩ (brought g)).append hleads, hend⟩

/-! ## What becomes of helpers -/

/-- **A helper that is known in the end has one rule**: one that was made has that of its making, and one
that was declared has as many as before. -/
theorem rulesOf_known (hcf : g.isContextFree = true)
    (hc : ((ofGrammar g).convertAll g g.rules).result = .ok (h.rules, last)) (hk : k ∈ last.known) :
    h.rulesOf k.symbol = [k.rule] := by
  have c : Converts g (ofGrammar g) g.rules h.rules last :=
    (valid_ofGrammar hcf).convertAll hcf (fun _ hr => hr) hc
  rcases c.valid.known_origin k hk with hminted | ⟨hdeclared, hsingle⟩
  · have kept := kept_numbered g
    exact rulesOf_minted hc (kept.convertAll hc (kept.ofGrammar rfl)) hminted
  · have hlength : (h.rulesOf k.symbol).length = 1 :=
      (c.length_rulesOf hdeclared).trans (beq_iff_eq.1 hsingle)
    obtain ⟨r, hr⟩ := List.length_eq_one_iff.1 hlength
    have hself := ofHead_mem_rulesOf.2 (eq_rule_of_known hcf c hk).1
    rw [hr, List.mem_singleton] at hself
    rw [hr, ← hself, Helper.rule]

end Workshop

namespace Grammar

open Workshop

variable {g : Grammar}

/-- **What is known of helpers is settled.**  At all times on the way to normal form, the helper for a
right side and the right side of a helper are looked up as inverses of each other, and what is found once
is found ever after.  If there is a normal form in the end, every helper that was ever found is one of its
nonterminals, and has there one rule, to the right side for which it was found. -/
theorem known_helpers_settled (hcf : g.isContextFree = true) :
    (∀ w ∈ history g, ∀ pattern x,
        w.helperFor? pattern = some x ↔ w.patternOf? x = some pattern) ∧
      (history g).Pairwise Retains ∧
      ∀ h, g.normalForm.result = .ok h → ∀ w ∈ history g, ∀ pattern x,
        w.helperFor? pattern = some x →
          x ∈ h.nonterminals ∧ h.rulesOf x = [.ofHead x pattern] := by
  obtain ⟨w', hleads, hend⟩ := history_leads g
  refine ⟨?_, hleads.pairwise_retains, fun h hh w hw pattern x hx => ?_⟩
  · have hempty : Inverse ⟨[], [], 0⟩ := fun _ _ => ⟨nofun, nofun⟩
    exact hleads.forall_mem (kept_inverse g) hempty
  · obtain ⟨last, hc, n⟩ := normalForm_converts hcf hh
    obtain rfl := hend _ _ hc
    have hk := mem_known_of_helperFor? ((hleads.retains_end w hw).helperFor? pattern x hx)
    exact ⟨n.symbol_mem hk, rulesOf_known hcf hc hk⟩

/-- A grammar in which a symbol becomes a helper after its only rule was converted. -/
def reused : Grammar where
  start := ⟨"C"⟩
  nonterminals := [⟨"C"⟩, ⟨"S"⟩, ⟨"A"⟩, ⟨"B"⟩]
  terminals := [⟨"a"⟩, ⟨"b"⟩, ⟨"c"⟩]
  rules := [.ofHead ⟨"S"⟩ [⟨"a"⟩, ⟨"B"⟩], .ofHead ⟨"C"⟩ [⟨"c"⟩, ⟨"a"⟩, ⟨"B"⟩], .ofHead ⟨"A"⟩ [⟨"a"⟩],
    .ofHead ⟨"B"⟩ [⟨"b"⟩]]
  nodup_nonterminals := by decide
  nodup_terminals := by decide
  wellFormed := defect?_eq_none_iff.1 (by decide)

/-- What `reused` becomes: `S` stands for `A B` in the rule of `C`. -/
def reusedNormal : Grammar where
  start := ⟨"C"⟩
  nonterminals := [⟨"C"⟩, ⟨"S"⟩, ⟨"A"⟩, ⟨"B"⟩, ⟨"0"⟩]
  terminals := [⟨"a"⟩, ⟨"b"⟩, ⟨"c"⟩]
  rules := [.ofHead ⟨"S"⟩ [⟨"A"⟩, ⟨"B"⟩], .ofHead ⟨"C"⟩ [⟨"0"⟩, ⟨"S"⟩], .ofHead ⟨"0"⟩ [⟨"c"⟩],
    .ofHead ⟨"A"⟩ [⟨"a"⟩], .ofHead ⟨"B"⟩ [⟨"b"⟩]]
  nodup_nonterminals := by decide
  nodup_terminals := by decide
  wellFormed := defect?_eq_none_iff.1 (by decide)

/-- At some time `S` is found for `A B`, and this is its rule in the end. -/
theorem reused_settled : reused.isContextFree = true ∧
    reused.normalForm.result = .ok reusedNormal ∧
    (∃ w ∈ history reused, w.helperFor? [⟨"A"⟩, ⟨"B"⟩] = some ⟨"S"⟩ ∧
      w.patternOf? ⟨"S"⟩ = some [⟨"A"⟩, ⟨"B"⟩]) ∧
    reusedNormal.rulesOf ⟨"S"⟩ = [.ofHead ⟨"S"⟩ [⟨"A"⟩, ⟨"B"⟩]] := by
  have hcf : reused.isContextFree = true := by decide
  have hh : reused.normalForm.result = .ok reusedNormal := by decide +kernel
  have hfound : ∃ w ∈ history reused, w.helperFor? [⟨"A"⟩, ⟨"B"⟩] = some ⟨"S"⟩ := by
    decide +kernel
  obtain ⟨w, hw, hx⟩ := hfound
  obtain ⟨hinverse, -, hsettled⟩ := known_helpers_settled hcf
  exact ⟨hcf, hh, ⟨w, hw, hx, (hinverse w hw _ _).1 hx⟩, (hsettled _ hh w hw _ _ hx).2⟩

end Grammar

end NormalGrammar
