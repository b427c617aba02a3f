import NormalGrammar.Normal.Reachable
import NormalGrammar.Proofs.Simulation

/-!
# The reachable part of a grammar

The search in passes finds exactly what can be reached from the start symbol (`mem_symbols_iff`).
`Reachable.Search` is its invariant: what has been visited has been found together with all that it
mentions.  The grammar that is kept has only reachable symbols (`allReachable_reachable`), and from
them the same words are derived as before (`derives_reachable_iff`).
-/

namespace NormalGrammar

open Sequence

namespace Sequence

universe u

variable {α : Type u} [DecidableEq α] [LE α] [DecidableLE α] {xs ys : List α}

theorem perm_of_isRearrangement (h : isRearrangement xs ys = true) : xs.Perm ys := by
  obtain ⟨-, hsort⟩ := Bool.and_eq_true_iff.1 h
  have hx := List.mergeSort_perm xs fun a b => decide (a ≤ b)
  rw [beq_iff_eq.1 hsort] at hx
  exact hx.symm.trans (List.mergeSort_perm ys _)

end Sequence

/-- What is closed under the rules, and holds the start symbol, holds all that is reachable. -/
theorem Grammar.IsReachable.mem_of_closed {g : Grammar} {x : Symbol} {closed : List Symbol}
    (hstart : g.start ∈ closed)
    (hclosed : ∀ x ∈ closed, ∀ rule ∈ g.rulesOf x, ∀ y ∈ rule.right,
      y ≠ Symbol.epsilon → y ∈ closed)
    (hx : g.IsReachable x) : x ∈ closed := by
  induction hx with
  | start => exact hstart
  | step _ hrule hy hε ih => exact hclosed _ ih _ hrule _ hy hε

namespace Reachable

open Grammar

variable {g : Grammar} {found visited result symbols : List Symbol} {limit passes : Nat}
  {x y : Symbol}

/-! ## The search -/

theorem mem_mentioned_iff : y ∈ mentioned g symbols ↔
    (∃ x ∈ symbols, ∃ rule ∈ g.rulesOf x, y ∈ rule.right) ∧ y ≠ Symbol.epsilon := by
  simp only [mentioned, List.mem_filter, List.mem_flatMap, Bool.not_eq_true',
    ← Bool.not_eq_true, Symbol.isEpsilon_iff, ne_eq]

/-- The state of a search: only reachable symbols have been found, and what has been visited has
been found together with all that it mentions. -/
structure Search (g : Grammar) (found visited : List Symbol) : Prop where
  start_mem : g.start ∈ found
  reachable : ∀ x ∈ found, g.IsReachable x
  visited_subset : visited ⊆ found
  mentioned_subset : mentioned g visited ⊆ found

theorem Search.initial : Search g [g.start] [] where
  start_mem := List.mem_singleton_self _
  reachable := by
    intro x hx
    rw [List.mem_singleton.1 hx]
    exact .start
  visited_subset := List.nil_subset _
  mentioned_subset := fun _ h => nomatch h

/-- A pass visits what has been found, and finds what that mentions. -/
theorem Search.pass (search : Search g found visited) :
    Search g (found ++ missing found (mentioned g (found.filter (· ∉ visited))))
      (visited ++ found.filter (· ∉ visited)) where
  start_mem := List.mem_append_left _ search.start_mem
  reachable := by
    intro y hy
    rcases List.mem_append.1 hy with hy | hy
    · exact search.reachable y hy
    · obtain ⟨⟨x, hx, rule, hrule, hright⟩, hε⟩ := mem_mentioned_iff.1 (mem_missing.1 hy).1
      exact .step (search.reachable x (List.mem_filter.1 hx).1) hrule hright hε
  visited_subset := by
    intro x hx
    refine List.mem_append_left _ ?_
    rcases List.mem_append.1 hx with hx | hx
    · exact search.visited_subset hx
    · exact (List.mem_filter.1 hx).1
  mentioned_subset := by
    intro y hy
    obtain ⟨⟨x, hx, h⟩, hε⟩ := mem_mentioned_iff.1 hy
    by_cases hyf : y ∈ found
    · exact List.mem_append_left _ hyf
    · rcases List.mem_append.1 hx with hx | hx
      · exact absurd (search.mentioned_subset (mem_mentioned_iff.2 ⟨⟨x, hx, h⟩, hε⟩)) hyf
      · exact List.mem_append_right _
          (mem_missing.2 ⟨mem_mentioned_iff.2 ⟨⟨x, hx, h⟩, hε⟩, hyf⟩)

/-- A search in which everything has been visited has found all that is reachable. -/
theorem Search.complete (search : Search g found visited) (hall : found ⊆ visited) :
    x ∈ found ↔ g.IsReachable x := by
  refine ⟨search.reachable x, IsReachable.mem_of_closed search.start_mem ?_⟩
  intro y hy rule hrule z hz hε
  exact search.mentioned_subset (mem_mentioned_iff.2 ⟨⟨y, hall hy, rule, hrule, hz⟩, hε⟩)

theorem Search.mem_explore_iff (search : Search g found visited)
    (h : explore g limit passes found visited = .ok result) :
    x ∈ result ↔ g.IsReachable x := by
  fun_induction explore g limit passes found visited with
  | case1 passes found visited hall =>
    obtain rfl := Except.ok.inj h
    exact search.complete (perm_of_isRearrangement hall).subset
  | case2 => cases h
  | case3 found visited _ passes _ ih => exact ih search.pass h

/-- The symbols found are the reachable ones. -/
theorem mem_symbols_iff (h : Reachable.symbols limit g = .ok result) :
    x ∈ result ↔ g.IsReachable x :=
  Search.initial.mem_explore_iff h

end Reachable

namespace Grammar

variable {g h : Grammar} {limit : Nat} {rule : Rule} {x : Symbol} {xs w : List Symbol}

/-! ## What is kept -/

/-- The parts that are kept are those that are made of what the search finds. -/
theorem reachable_eq_ok_found (hh : (g.reachable limit).result = .ok h) :
    ∃ found, Reachable.symbols limit g = .ok found ∧ h.start = g.start ∧
      h.nonterminals = g.nonterminals.filter (· ∈ found) ∧
      h.terminals = g.terminals.filter (· ∈ found) ∧
      h.rules = g.rules.filter fun rule => rule.left.all (· ∈ found) := by
  obtain ⟨found, hfound, hb⟩ := Traced.result_bind_eq_ok_iff.1 hh
  obtain ⟨-, -, hb⟩ := Traced.result_bind_eq_ok_iff.1 hb
  exact ⟨found, hfound,
    Stage.parts_of_build (g.nodup_nonterminals.filter _) (g.nodup_terminals.filter _) hb⟩

theorem reachable_eq_ok (hh : (g.reachable limit).result = .ok h) :
    h.start = g.start ∧ (∀ x, x ∈ h.nonterminals ↔ x ∈ g.nonterminals ∧ g.IsReachable x) ∧
      (∀ x, x ∈ h.terminals ↔ x ∈ g.terminals ∧ g.IsReachable x) ∧
      ∀ rule, rule ∈ h.rules ↔ rule ∈ g.rules ∧ ∀ x ∈ rule.left, g.IsReachable x := by
  obtain ⟨found, hfound, hs, hn, ht, hr⟩ := reachable_eq_ok_found hh
  have hmem : ∀ x, x ∈ found ↔ g.IsReachable x := fun x => Reachable.mem_symbols_iff hfound
  refine ⟨hs, fun x => ?_, fun x => ?_, fun rule => ?_⟩
  · simp [hn, hmem]
  · simp [ht, hmem]
  · simp [hr, hmem, List.all_eq_true]

theorem mem_rulesOf_reachable (hh : (g.reachable limit).result = .ok h) :
    rule ∈ h.rulesOf x ↔ rule ∈ g.rulesOf x ∧ g.IsReachable x := by
  obtain ⟨-, -, -, hr⟩ := reachable_eq_ok hh
  rw [mem_rulesOf_iff_left, mem_rulesOf_iff_left, hr]
  constructor
  · rintro ⟨⟨hrule, hreach⟩, hleft⟩
    exact ⟨⟨hrule, hleft⟩, hreach x (hleft ▸ List.mem_singleton_self x)⟩
  · rintro ⟨⟨hrule, hleft⟩, hx⟩
    exact ⟨⟨hrule, fun y hy => List.mem_singleton.1 (hleft ▸ hy) ▸ hx⟩, hleft⟩

/-- What was reachable can still be reached. -/
theorem IsReachable.of_reachable (hh : (g.reachable limit).result = .ok h)
    (hx : g.IsReachable x) : h.IsReachable x := by
  induction hx with
  | start =>
    rw [← (reachable_eq_ok hh).1]
    exact .start
  | step hx hrule hy hε ih => exact .step ih ((mem_rulesOf_reachable hh).2 ⟨hrule, hx⟩) hy hε

/-- **Everything that is kept is reachable.** -/
theorem allReachable_reachable (hh : (g.reachable limit).result = .ok h) : h.AllReachable := by
  obtain ⟨-, hn, ht, -⟩ := reachable_eq_ok hh
  intro x hx
  rcases List.mem_append.1 hx with hx | hx
  · exact ((hn x).1 hx).2.of_reachable hh
  · exact ((ht x).1 hx).2.of_reachable hh

theorem isContextFree_reachable (hcf : g.isContextFree = true)
    (hh : (g.reachable limit).result = .ok h) : h.isContextFree = true := by
  obtain ⟨-, hn, -, hr⟩ := reachable_eq_ok hh
  refine isContextFree_iff.2 fun rule hrule => ?_
  obtain ⟨hrule, hreach⟩ := (hr rule).1 hrule
  obtain ⟨x, hx, hleft⟩ := isContextFree_iff.1 hcf rule hrule
  exact ⟨x, (hn x).2 ⟨hx, hreach x (hleft ▸ List.mem_singleton_self x)⟩, hleft⟩

/-- **From reachable symbols the same words are derived.** -/
theorem derives_reachable_iff (hh : (g.reachable limit).result = .ok h)
    (hxs : ∀ x ∈ xs, x ≠ Symbol.epsilon → g.IsReachable x) :
    h.Derives xs w ↔ g.Derives xs w := by
  obtain ⟨-, -, ht, hr⟩ := reachable_eq_ok hh
  constructor
  · exact Derives.mono (fun a ha => ((ht a).1 ha).1) fun rule hrule => ((hr rule).1 hrule).1
  · refine fun d => d.simulate (P := g.IsReachable) (fun a ha hreach => (ht a).2 ⟨ha, hreach⟩)
      (fun x rule hx hmem y hy hε => .step hx hmem hy hε) (fun x rule v hx hmem _ dv => ?_) hxs
    exact dv.of_rule ((mem_rulesOf_reachable hh).2 ⟨hmem, hx⟩)

end Grammar

end NormalGrammar
