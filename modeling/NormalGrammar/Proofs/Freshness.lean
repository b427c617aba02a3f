import NormalGrammar.Proofs.Normalization

/-!
# Where new helpers may get their names from

The last stage gives its helpers names that no symbol has any more.  It does not know of the symbols
that were dropped on the way, and may use their names again (`spare_name_used_again`).

* The symbols that were dropped are those out of reach, and the nonterminals that derive no word
  (`Steps.dropped`).
* So a new helper has the name of a symbol of the grammar at the beginning only if that symbol was
  dropped (`introduced_or_dropped`).
-/

namespace NormalGrammar

open Grammar

variable {g e u r p n : Grammar} {limit : Nat} {x : Symbol}

/-- A new nonterminal has the name of no symbol that was left when it was made. -/
theorem IsNormalFormOf.fresh_of_introduced {workshop : Workshop} (hnf : IsNormalFormOf workshop p n)
    (hx : x ∈ n.nonterminals) (hnew : x ∉ p.nonterminals) : x ∉ p.terminals := by
  obtain ⟨k, hk, rfl⟩ := ((hnf.mem_nonterminals x).1 hx).resolve_left hnew
  exact (hnf.valid.minted_fresh k hk).2

/-- What was declared at the beginning and is not any more after the fourth stage was out of reach, or
is a nonterminal that derives no word but the empty one. -/
theorem Steps.dropped (s : Steps limit g e u r p n) (hcf : g.isContextFree = true)
    (hx : x ∈ g.nonterminals ++ g.terminals) (hp : x ∉ p.nonterminals) (hp' : x ∉ p.terminals) :
    ¬ u.IsReachable x ∨ x ∈ g.nonterminals ∧ ¬ ∃ w, w ≠ [] ∧ g.Derives [x] w := by
  obtain ⟨hrcf, hε, -⟩ := s.parts hcf
  obtain ⟨-, hne, hte, -⟩ := epsilonFree_eq_ok s.epsilonFree
  obtain ⟨-, hnu, htu, -⟩ := renamingFree_eq_ok s.renamingFree
  obtain ⟨-, hnr, htr, -⟩ := reachable_eq_ok s.reachable
  obtain ⟨-, hnp, htp, -⟩ := productive_eq_ok hrcf hε s.productive
  by_cases hreach : u.IsReachable x
  case neg => exact .inl hreach
  right
  rcases List.mem_append.1 hx with hx | hx
  · have hxr : x ∈ r.nonterminals := (hnr x).2 ⟨by rwa [hnu, hne], hreach⟩
    refine ⟨hx, fun ⟨w, hw, d⟩ => hp ((hnp x).2 ⟨hxr, w, ?_⟩)⟩
    exact (s.derives_reachable_iff hcf hxr).2 ⟨d, hw⟩
  · have hxr : x ∈ r.terminals := (htr x).2 ⟨by rwa [htu, hte], hreach⟩
    rw [htp] at hp'
    exact absurd hxr hp'

/-- **New names are free when they are given.**  A nonterminal that the last stage introduced has the
name of no symbol left by then; it has the name of a symbol of the grammar at the beginning only if
this symbol was out of reach after the second stage, or is a nonterminal that derives no word but
the empty one. -/
theorem introduced_or_dropped (hcf : g.isContextFree = true) (hn : g.normalize limit = .ok n) :
    ∃ u p, (g.normalization limit).finished.lookup .renamings = some u ∧
      (g.normalization limit).finished.lookup .productivity = some p ∧
      ∀ x ∈ n.nonterminals, x ∉ p.nonterminals → x ∉ p.terminals ∧
        (x ∈ g.nonterminals ++ g.terminals →
          ¬ u.IsReachable x ∨ x ∈ g.nonterminals ∧ ¬ ∃ w, w ≠ [] ∧ g.Derives [x] w) := by
  obtain ⟨e, u, r, p, s, hfinished⟩ := normalize_eq_ok hcf hn
  obtain ⟨-, -, -, workshop, hnf⟩ := s.parts hcf
  refine ⟨u, p, ?_, ?_, fun x hx hnew => ?_⟩
  · rw [hfinished]
    rfl
  · rw [hfinished]
    rfl
  · have hfree := hnf.fresh_of_introduced hx hnew
    exact ⟨hfree, fun hdeclared => s.dropped hcf hdeclared hnew hfree⟩

/-- A grammar with a nonterminal called `0`, which is out of reach. -/
def spare : Grammar where
  start := ⟨"S"⟩
  nonterminals := [⟨"S"⟩, ⟨"0"⟩]
  terminals := [⟨"x"⟩, ⟨"y"⟩]
  rules := [.ofHead ⟨"S"⟩ [⟨"x"⟩, ⟨"y"⟩]]
  nodup_nonterminals := by decide
  nodup_terminals := by decide
  wellFormed := defect?_eq_none_iff.1 (by decide)

/-- What `spare` becomes: `0` is a helper for `x`. -/
def spareNormal : Grammar where
  start := ⟨"S"⟩
  nonterminals := [⟨"S"⟩, ⟨"0"⟩, ⟨"1"⟩]
  terminals := [⟨"x"⟩, ⟨"y"⟩]
  rules := [.ofHead ⟨"S"⟩ [⟨"0"⟩, ⟨"1"⟩], .ofHead ⟨"0"⟩ [⟨"x"⟩], .ofHead ⟨"1"⟩ [⟨"y"⟩]]
  nodup_nonterminals := by decide
  nodup_terminals := by decide
  wellFormed := defect?_eq_none_iff.1 (by decide)

theorem normalize_spare : spare.normalize 10 = .ok spareNormal := by decide_cbv

/-- In `spare`, what becomes of `0`: it is a new helper, and was out of reach or derived no word. -/
theorem spare_introduced : spare.isContextFree = true ∧
    spare.normalize 10 = .ok spareNormal ∧
    ∃ u p, (spare.normalization 10).finished.lookup .renamings = some u ∧
      (spare.normalization 10).finished.lookup .productivity = some p ∧
      ∀ x ∈ spareNormal.nonterminals, x ∉ p.nonterminals → x ∉ p.terminals ∧
        (x ∈ spare.nonterminals ++ spare.terminals → ¬ u.IsReachable x ∨
          x ∈ spare.nonterminals ∧ ¬ ∃ w, w ≠ [] ∧ spare.Derives [x] w) :=
  have hcf : spare.isContextFree = true := by decide
  ⟨hcf, normalize_spare, introduced_or_dropped hcf normalize_spare⟩

/-- **A name may be used again**: `0` was declared at the beginning, is dropped, and is the name of a
helper in the end. -/
theorem spare_name_used_again : spare.isContextFree = true ∧
    spare.normalize 10 = .ok spareNormal ∧
    ((spare.normalization 10).finished.lookup .productivity).map Grammar.nonterminals =
      some [⟨"S"⟩] ∧
    ⟨"0"⟩ ∈ spareNormal.nonterminals ∧ ⟨"0"⟩ ∈ spare.nonterminals := by
  exact ⟨by decide, normalize_spare, by decide_cbv, by decide, by decide⟩

end NormalGrammar
