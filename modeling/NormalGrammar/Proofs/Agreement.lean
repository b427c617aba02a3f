import Mathlib
import NormalGrammar.Proofs.Naming
import NormalGrammar.Proofs.Normalization
import NormalGrammar.Proofs.Sameness

/-!
# What does not depend on order

The stages give the same outcome for grammars that are the same: the order in which symbols are
declared never shows in a rule, in a new name or in an error.  Nor does the order in which helpers
are kept that are known.

* `Agree R r r'` compares two results: both are values that `R` relates, or the same error.
* Parts that differ in the order of declarations have the same defect, or make up grammars that are
  the same (`agree_build`).
* `Workshop.Alike` compares two workshops; conversions in both go the same way
  (`Alike.convertAll`), since a helper is found by its right side and no two have the same
  (`kept_oneToOne`).
* `Same.agree_run` says this of every stage, `same_normalizes_same` of all of them.
-/

namespace NormalGrammar

open Sequence Grammar

variable {g h : Grammar} {limit : Nat} {stage : Stage} {rule : Rule} {rules : List Rule}
  {start x : Symbol} {nonterminals nonterminals' terminals terminals' xs : List Symbol}

/-! ## Results that agree -/

/-- Two results agree if they are values that are related, or the same error. -/
inductive Agree {ε α β : Type} (R : α → β → Prop) : Except ε α → Except ε β → Prop
  | ok {a : α} {b : β} : R a b → Agree R (.ok a) (.ok b)
  | error (e : ε) : Agree R (.error e) (.error e)

namespace Agree

variable {ν ε α α' β β' : Type} {R R' : α → α' → Prop} {S : β → β' → Prop}

theorem refl : (r : Except ε α) → Agree (· = ·) r r
  | .ok _ => .ok rfl
  | .error e => .error e

theorem mono {r : Except ε α} {r' : Except ε α'} (h : Agree R r r')
    (hR : ∀ a a', R a a' → R' a a') : Agree R' r r' := by
  cases h with
  | ok h => exact .ok (hR _ _ h)
  | error e => exact .error e

/-- Computations in a row agree if the first do, and the second do on what the first return. -/
theorem bind {t : Traced ν ε α} {t' : Traced ν ε α'} {f : α → Traced ν ε β}
    {f' : α' → Traced ν ε β'} (ht : Agree R t.result t'.result)
    (hf : ∀ a a', t.result = .ok a → R a a' → Agree S (f a).result (f' a').result) :
    Agree S (t >>= f).result (t' >>= f').result := by
  rw [Traced.result_bind, Traced.result_bind]
  generalize t.result = r at ht hf ⊢
  generalize t'.result = r' at ht ⊢
  cases ht with
  | ok h => exact hf _ _ rfl h
  | error e => exact .error e

theorem bind_eq {t t' : Traced ν ε α} {f : α → Traced ν ε β} {f' : α → Traced ν ε β'}
    (ht : t.result = t'.result) (hf : ∀ a, Agree S (f a).result (f' a).result) :
    Agree S (t >>= f).result (t' >>= f').result := by
  refine bind (R := (· = ·)) ?_ ?_
  · rw [ht]
    exact refl _
  · rintro a _ - rfl
    exact hf a

end Agree

/-! ## Making grammars -/

theorem Rule.defect?_congr {declared declared' : List Symbol}
    (hdeclared : ∀ x, x ∈ declared ↔ x ∈ declared') :
    rule.defect? declared = rule.defect? declared' := by
  simp only [Rule.defect?, hdeclared]

/-- What is wrong with some parts depends only on which symbols are declared, where no symbol is of
both kinds. -/
theorem defect?_congr (hn : ∀ x, x ∈ nonterminals ↔ x ∈ nonterminals')
    (ht : ∀ x, x ∈ terminals ↔ x ∈ terminals') (hdisjoint : ∀ x ∈ nonterminals, x ∉ terminals) :
    defect? start nonterminals terminals rules = defect? start nonterminals' terminals' rules := by
  have hnone : nonterminals.find? (· ∈ terminals) = none := by
    simpa [List.find?_eq_none] using hdisjoint
  have hnone' : nonterminals'.find? (· ∈ terminals') = none := by
    simpa [List.find?_eq_none, ← hn, ← ht] using hdisjoint
  have hrule : Rule.defect? (nonterminals ++ terminals) =
      Rule.defect? (nonterminals' ++ terminals') := by
    funext rule
    exact Rule.defect?_congr fun x => by simp [hn, ht]
  simp only [defect?, hnone, hnone']
  simp only [hn, ht, hrule, List.mem_append]

/-- **Parts that are declared in another order** have the same defect, or make up the same
grammar. -/
theorem agree_build (stage : Stage) (hn : ∀ x, x ∈ nonterminals ↔ x ∈ nonterminals')
    (ht : ∀ x, x ∈ terminals ↔ x ∈ terminals') (hdisjoint : ∀ x ∈ nonterminals, x ∉ terminals) :
    Agree Same (stage.build start nonterminals terminals rules)
      (stage.build start nonterminals' terminals' rules) := by
  have hdefect : defect? start (distinct nonterminals) (distinct terminals) rules =
      defect? start (distinct nonterminals') (distinct terminals') rules :=
    defect?_congr (by simpa using hn) (by simpa using ht) (by simpa using hdisjoint)
  unfold Stage.build
  cases hparts : ofParts start nonterminals terminals rules with
  | error d =>
    have hparts' : ofParts start nonterminals' terminals' rules = .error d := by
      rw [ofParts_eq_error_iff, ← hdefect, ← ofParts_eq_error_iff, hparts]
    rw [hparts']
    exact .error _
  | ok g =>
    cases hparts' : ofParts start nonterminals' terminals' rules with
    | error d =>
      rw [ofParts_eq_error_iff, ← hdefect, ← ofParts_eq_error_iff, hparts] at hparts'
      cases hparts'
    | ok h =>
      obtain ⟨hs, hgn, hgt, hr⟩ := ofParts_eq_ok_iff.1 hparts
      obtain ⟨hs', hhn, hht, hr'⟩ := ofParts_eq_ok_iff.1 hparts'
      refine .ok ⟨hs.trans hs'.symm, hr.trans hr'.symm, ?_, ?_, ?_, ?_⟩
      all_goals simp [hgn, hgt, hhn, hht, hn, ht]

/-! ## Stages that look at rules only -/

/-- Inlining looks only at which rules are renamings. -/
theorem RenamingFree.run_congr (s : Same g h) (passes : Nat) (rules : List Rule) :
    run g limit passes rules = run h limit passes rules := by
  induction passes generalizing rules with
  | zero =>
    rw [run.eq_def, run.eq_def, s.isRenaming_eq]
  | succ passes ih =>
    rw [run.eq_def, run.eq_def, s.isRenaming_eq]
    simp only [ih]

theorem Reachable.symbols_congr (s : Same g h) :
    Reachable.symbols limit g = Reachable.symbols limit h := by
  have hmentioned : mentioned g = mentioned h := by
    funext symbols
    simp only [mentioned, s.rulesOf_eq]
  have hexplore : ∀ passes found visited,
      explore g limit passes found visited = explore h limit passes found visited := by
    intro passes
    induction passes with
    | zero =>
      intro found visited
      rw [explore.eq_def, explore.eq_def]
    | succ passes ih =>
      intro found visited
      rw [explore.eq_def, explore.eq_def]
      simp only [hmentioned, ih]
  rw [Reachable.symbols, Reachable.symbols, hexplore, s.start_eq]

/-- Whether a right side counts as productive depends only on which symbols are terminals. -/
theorem Productive.derives_congr (s : Same g h) : derives g = derives h := by
  funext known rule
  simp only [derives, s.isTerminal_eq]

theorem Productive.symbols_congr (s : Same g h) : symbols limit g = symbols limit h := by
  have hheads : heads g = heads h := by
    funext known
    simp only [heads, s.rules_eq, derives_congr s]
  have hexplore : ∀ passes known, explore g limit passes known = explore h limit passes known := by
    intro passes
    induction passes with
    | zero => exact fun _ => rfl
    | succ passes ih => simp only [explore, hheads, ih, implies_true]
  rw [symbols, symbols, hexplore, hheads]

/-! ## Workshops that know the same helpers -/

namespace Workshop

variable {w w' : Workshop} {pattern : List Symbol} {k : Helper}

/-- Workshops that know the same helpers, in whatever order, and made the same ones. -/
structure Alike (w w' : Workshop) : Prop where
  known_perm : w.known.Perm w'.known
  minted_eq : w.minted = w'.minted
  next_eq : w.next = w'.next
  oneToOne : OneToOne w

theorem Alike.refl (o : OneToOne w) : Alike w w := ⟨.refl _, rfl, rfl, o⟩

/-- What no two helpers share finds the same helper. -/
theorem Alike.find?_eq {β : Type} [DecidableEq β] {f : Helper → β} (a : Alike w w')
    (hf : (w.known.map f).Nodup) (b : β) :
    w.known.find? (fun k => decide (f k = b)) = w'.known.find? fun k => decide (f k = b) := by
  refine List.find?_eq_find?_of_perm a.known_perm ?_
  rintro k ⟨hk, hkb⟩ k' ⟨hk', hkb'⟩
  refine List.inj_on_of_nodup_map hf hk hk' ?_
  rw [of_decide_eq_true hkb, of_decide_eq_true hkb']

theorem Alike.helperFor?_eq (a : Alike w w') (pattern : List Symbol) :
    w.helperFor? pattern = w'.helperFor? pattern :=
  congrArg _ (a.find?_eq a.oneToOne.patterns pattern)

theorem Alike.patternOf?_eq (a : Alike w w') (x : Symbol) : w.patternOf? x = w'.patternOf? x :=
  congrArg _ (a.find?_eq a.oneToOne.symbols x)

theorem Alike.learn (a : Alike w w') (k : Helper) : Alike (w.learn k) (w'.learn k) := by
  have o := a.oneToOne.learn k
  rw [Workshop.learn] at o
  rw [Workshop.learn, Workshop.learn, ← a.patternOf?_eq, ← a.helperFor?_eq]
  split
  · exact a
  · rename_i hnew
    rw [if_neg hnew] at o
    exact ⟨a.known_perm.append_right _, a.minted_eq, a.next_eq, o⟩

/-- The search for a free name depends only on which names are taken. -/
theorem freeNumber_congr {taken taken' : List Symbol} (htaken : ∀ x, x ∈ taken ↔ x ∈ taken')
    (tries n : Nat) : freeNumber taken tries n = freeNumber taken' tries n := by
  induction tries generalizing n with
  | zero => rfl
  | succ tries ih => simp only [freeNumber, htaken, ih]

theorem Alike.nonterminals_perm (a : Alike w w') (s : Same g h) :
    (w.nonterminals g).Perm (w'.nonterminals h) := by
  rw [nonterminals, nonterminals, a.minted_eq]
  exact s.nonterminals_perm.append_right _

theorem Alike.taken_perm (a : Alike w w') (s : Same g h) : (w.taken g).Perm (w'.taken h) :=
  (a.nonterminals_perm s).append s.terminals_perm

/-- What two conversions that go the same way have to show. -/
def Matching {α : Type} (out out' : α × Workshop) : Prop := out.1 = out'.1 ∧ Alike out.2 out'.2

theorem Alike.mint (a : Alike w w') (s : Same g h) (pattern : List Symbol) :
    Matching (w.mint g pattern) (w'.mint h pattern) := by
  have htaken := a.taken_perm s
  have hnumber : freeNumber (w.taken g) (w.taken g).length w.next =
      freeNumber (w'.taken h) (w'.taken h).length w'.next := by
    rw [htaken.length_eq, a.next_eq]
    exact freeNumber_congr (fun _ => htaken.mem_iff) _ _
  simp only [Workshop.mint, hnumber]
  have hlearned := a.learn ⟨.ofNumber (freeNumber (w'.taken h) (w'.taken h).length w'.next), pattern⟩
  exact ⟨rfl, hlearned.known_perm, by rw [a.minted_eq], rfl, hlearned.oneToOne.symbols,
    hlearned.oneToOne.patterns⟩

theorem Alike.supply (a : Alike w w') (s : Same g h) (pattern : List Symbol) :
    Matching (w.supply g pattern) (w'.supply h pattern) := by
  simp only [Workshop.supply, ← a.helperFor?_eq]
  split
  · exact ⟨rfl, a⟩
  · exact a.mint s pattern

theorem Alike.isolate (a : Alike w w') (s : Same g h) (xs : List Symbol) :
    Matching (w.isolate g xs) (w'.isolate h xs) := by
  induction xs generalizing w w' with
  | nil => exact ⟨rfl, a⟩
  | cons x xs ih =>
    simp only [Workshop.isolate, ← s.isTerminal_eq]
    split
    · obtain ⟨hx, a⟩ := a.supply s [x]
      obtain ⟨hxs, a⟩ := ih a
      exact ⟨by rw [hx, hxs], a⟩
    · obtain ⟨hxs, a⟩ := ih a
      exact ⟨by rw [hxs], a⟩

theorem Alike.fold (a : Alike w w') (s : Same g h) (xs : List Symbol) :
    Matching (w.fold g xs) (w'.fold h xs) := by
  fun_induction Workshop.fold g w xs generalizing w' with
  | case1 w x y z rest pair w₁ hpair k w₂ hsupply ih =>
    obtain ⟨hpair', a⟩ := ih a
    rw [hpair] at hpair' a
    have hmatch := a.supply s pair
    rw [hsupply] at hmatch
    simp only [Workshop.fold, ← hpair']
    exact ⟨congrArg ([x, ·]) hmatch.1, hmatch.2⟩
  | case2 w xs hshort =>
    unfold Workshop.fold
    split
    · exact absurd rfl (hshort _ _ _ _)
    · exact ⟨rfl, a⟩

theorem Alike.convert (a : Alike w w') (s : Same g h) (rule : Rule) :
    Agree Matching (w.convert g rule) (w'.convert h rule) := by
  have hsingle : hasSingleRule g = hasSingleRule h := by
    funext x
    simp only [hasSingleRule, s.rulesOf_eq]
  have hnonterminal : (fun x => decide (x ∈ w.nonterminals g)) = fun x =>
      decide (x ∈ w'.nonterminals h) := by
    funext x
    simp only [(a.nonterminals_perm s).mem_iff]
  rw [Workshop.convert, Workshop.convert, s.isTerminal_eq, hnonterminal, hsingle]
  cases Stage.headOf .normalForm rule with
  | error e => exact .error e
  | ok head =>
    dsimp only [bind, Except.bind]
    split
    · split
      · exact .ok ⟨rfl, a⟩
      · exact .error _
    · split
      · exact .ok ⟨rfl, a⟩
      · split
        · exact .error _
        · obtain ⟨hisolated, a⟩ := a.isolate s rule.right
          obtain ⟨hfolded, a⟩ := a.fold s (w.isolate g rule.right).1
          rw [← hisolated]
          refine .ok ⟨hfolded, ?_⟩
          dsimp only
          rw [← hfolded]
          split
          · exact a.learn _
          · exact a

/-- All rules are converted in the same way. -/
theorem Alike.convertAll (a : Alike w w') (s : Same g h) (rules : List Rule) :
    Agree Matching (w.convertAll g rules).result (w'.convertAll h rules).result := by
  induction rules generalizing w w' with
  | nil => exact .ok ⟨rfl, a⟩
  | cons rule rest ih =>
    refine .bind (R := Matching) (a.convert s rule) ?_
    rintro ⟨right, after⟩ ⟨_, after'⟩ - ⟨rfl, b⟩
    refine .bind_eq rfl fun _ => .bind (ih b) ?_
    rintro ⟨out, last⟩ ⟨_, last'⟩ - ⟨rfl, c⟩
    have hminted : after.minted = after'.minted := b.minted_eq
    refine .ok ⟨?_, c⟩
    simp only [a.minted_eq, hminted]

end Workshop

/-! ## The stages -/

namespace Grammar.Same

theorem ofGrammar_eq (s : Same g h) : Workshop.ofGrammar g = Workshop.ofGrammar h := by
  unfold Workshop.ofGrammar Workshop.brought Workshop.hasSingleRule
  rw [s.rules_eq, s.rulesOf_eq, s.isNormal_eq]

theorem agree_normalForm (s : Same g h) : Agree Same g.normalForm.result h.normalForm.result := by
  have hlike : Workshop.Alike (.ofGrammar g) (.ofGrammar h) :=
    s.ofGrammar_eq ▸ .refl (Workshop.oneToOne_ofGrammar g)
  have hrules := hlike.convertAll s g.rules
  rw [Grammar.normalForm, Grammar.normalForm, ← s.rules_eq, ← s.start_eq]
  refine .bind hrules ?_
  rintro ⟨rules, w⟩ ⟨_, w'⟩ hc ⟨rfl, a⟩
  have hminted : w.minted = w'.minted := a.minted_eq
  refine agree_build _ (by simp [s.mem_nonterminals_iff, hminted])
    (fun _ => s.mem_terminals_iff) fun x hx hterminal => ?_
  rcases List.mem_append.1 hx with hx | hx
  · exact not_mem_terminals hx hterminal
  · -- new helpers have names that are not declared
    have kept := Workshop.kept_numbered g
    have hnumbered : Workshop.Numbered g w := kept.convertAll hc (kept.ofGrammar rfl)
    rw [hnumbered] at hx
    have hfree := of_decide_eq_true (List.mem_filter.1 hx).2
    exact hfree (List.mem_append_right _ hterminal)

/-- **Every stage makes the same of the same**, or fails in the same way. -/
theorem agree_run (s : Same g h) (limit : Nat) (stage : Stage) :
    Agree Same (stage.run limit g).result (stage.run limit h).result := by
  have hdisjoint := g.wellFormed.disjoint
  cases stage with
  | epsilonRules =>
    refine .bind_eq (by rw [s.rules_eq]) fun rules => ?_
    rw [s.start_eq]
    exact agree_build _ (fun _ => s.mem_nonterminals_iff) (fun _ => s.mem_terminals_iff) hdisjoint
  | renamings =>
    refine .bind_eq (by rw [s.rules_eq, RenamingFree.run_congr s]) fun rules => ?_
    rw [s.start_eq]
    exact agree_build _ (fun _ => s.mem_nonterminals_iff) (fun _ => s.mem_terminals_iff) hdisjoint
  | reachability =>
    refine .bind_eq (by rw [Reachable.symbols_congr s]) fun found => .bind_eq rfl fun _ => ?_
    rw [s.start_eq, s.rules_eq]
    refine agree_build _ (by simp [s.mem_nonterminals_iff]) (by simp [s.mem_terminals_iff]) ?_
    exact fun x hx hx' => hdisjoint x (List.mem_filter.1 hx).1 (List.mem_filter.1 hx').1
  | productivity =>
    refine .bind_eq (by rw [Productive.symbols_congr s]) fun known => .bind_eq rfl fun _ => ?_
    rw [s.start_eq, s.rules_eq, Productive.derives_congr s]
    refine agree_build _ (by simp [s.mem_nonterminals_iff]) (fun _ => s.mem_terminals_iff) ?_
    exact fun x hx => hdisjoint x (List.mem_filter.1 hx).1
  | normalForm => exact s.agree_normalForm

theorem agree_ofStages (s : Same g h) (limit : Nat) (stages : List Stage) :
    Agree Same (Normalization.ofStages limit g stages).result
        (Normalization.ofStages limit h stages).result ∧
      List.Forall₂ (fun p q => p.1 = q.1 ∧ Same p.2 q.2)
        (Normalization.ofStages limit g stages).finished
        (Normalization.ofStages limit h stages).finished := by
  induction stages generalizing g h with
  | nil => exact ⟨.ok s, .nil⟩
  | cons stage rest ih =>
    simp only [Normalization.ofStages, Normalization.result_announced]
    have hrun := s.agree_run limit stage
    generalize (stage.run limit g).result = r at hrun ⊢
    generalize (stage.run limit h).result = r' at hrun ⊢
    cases hrun with
    | error e => exact ⟨.error e, .nil⟩
    | ok next =>
      obtain ⟨hresult, hfinished⟩ := ih next
      exact ⟨hresult, .cons ⟨rfl, next⟩ hfinished⟩

/-- The same grammars are turned away for the same rule, or go through the stages alike. -/
theorem agree_normalization (s : Same g h) (limit : Nat) :
    Agree Same (g.normalize limit) (h.normalize limit) ∧
      List.Forall₂ (fun p q => p.1 = q.1 ∧ Same p.2 q.2) (g.normalization limit).finished
        (h.normalization limit).finished := by
  rw [normalize, normalize, normalization, normalization, s.rules_eq, s.rewritesNonterminal_eq]
  split
  · exact ⟨.error _, .nil⟩
  · exact s.agree_ofStages limit Stage.all

end Grammar.Same

/-! ## Outcomes -/

/-- **Grammars that are the same have the same outcome.**  In every stage, and in all of them in a row,
grammars that differ in nothing but the order of their declarations become such grammars, of the same
class, or fail with the same error; and so do the grammars on the way.  In the last stage the order in
which the helpers are kept that a grammar brings along does not matter either: the rules are the same,
and so are the new helpers with their names. -/
theorem same_normalizes_same (s : Same g h) (limit : Nat) :
    (∀ stage : Stage, Agree (fun m n => Same m n ∧ m.kind = n.kind) (stage.run limit g).result
        (stage.run limit h).result) ∧
      Agree (fun m n => Same m n ∧ m.kind = n.kind) (g.normalize limit) (h.normalize limit) ∧
      List.Forall₂ (fun p q => p.1 = q.1 ∧ Same p.2 q.2 ∧ p.2.kind = q.2.kind)
        (g.normalization limit).finished (h.normalization limit).finished ∧
      ∀ known, (Workshop.ofGrammar g).known.Perm known →
        Agree (fun out out' => out.1 = out'.1 ∧ out.2.minted = out'.2.minted)
          ((Workshop.ofGrammar g).convertAll g g.rules).result
          (Workshop.convertAll h { Workshop.ofGrammar g with known } h.rules).result := by
  obtain ⟨hresult, hfinished⟩ := s.agree_normalization limit
  have hkind : ∀ m n : Grammar, Same m n → Same m n ∧ m.kind = n.kind :=
    fun m n t => ⟨t, t.kind_eq⟩
  refine ⟨fun stage => (s.agree_run limit stage).mono hkind, hresult.mono hkind, ?_, ?_⟩
  · exact hfinished.imp fun p q hpq => ⟨hpq.1, hkind _ _ hpq.2⟩
  · intro known hperm
    have hlike : Workshop.Alike (.ofGrammar g) { Workshop.ofGrammar g with known } :=
      ⟨hperm, rfl, rfl, Workshop.oneToOne_ofGrammar g⟩
    rw [← s.rules_eq]
    exact (hlike.convertAll s g.rules).mono fun _ _ hmatch => ⟨hmatch.1, hmatch.2.minted_eq⟩

/-- A grammar that needs helpers. -/
def plain : Grammar where
  start := ⟨"M"⟩
  nonterminals := [⟨"M"⟩, ⟨"N"⟩]
  terminals := [⟨"m"⟩, ⟨"n"⟩]
  rules := [.ofHead ⟨"M"⟩ [⟨"m"⟩, ⟨"N"⟩, ⟨"n"⟩], .ofHead ⟨"N"⟩ [⟨"n"⟩]]
  nodup_nonterminals := by decide
  nodup_terminals := by decide
  wellFormed := defect?_eq_none_iff.1 (by decide)

/-- The same grammar, with its declarations the other way round. -/
def turned : Grammar where
  start := ⟨"M"⟩
  nonterminals := [⟨"N"⟩, ⟨"M"⟩]
  terminals := [⟨"n"⟩, ⟨"m"⟩]
  rules := [.ofHead ⟨"M"⟩ [⟨"m"⟩, ⟨"N"⟩, ⟨"n"⟩], .ofHead ⟨"N"⟩ [⟨"n"⟩]]
  nodup_nonterminals := by decide
  nodup_terminals := by decide
  wellFormed := defect?_eq_none_iff.1 (by decide)

/-- The two grammars are not equal, and what they become is not, but it is the same. -/
theorem plain_turned : Same plain turned ∧ plain ≠ turned ∧
    plain.normalize 10 ≠ turned.normalize 10 ∧
    ∃ m n, plain.normalize 10 = .ok m ∧ turned.normalize 10 = .ok n ∧ Same m n := by
  have hsame : Same plain turned := by decide
  obtain ⟨-, hresult, -⟩ := same_normalizes_same hsame 10
  refine ⟨hsame, by decide, by decide_cbv, ?_⟩
  obtain ⟨m, hm⟩ : ∃ m, plain.normalize 10 = .ok m := exists_eq_ok_of_isSome (by decide_cbv)
  rw [hm] at hresult ⊢
  generalize turned.normalize 10 = r at hresult ⊢
  cases hresult with
  | ok hmn => exact ⟨m, _, rfl, rfl, hmn.1⟩

end NormalGrammar
