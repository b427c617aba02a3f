import Mathlib.Logic.Function.Iterate
import NormalGrammar.Proofs.Passes

/-!
# What each pass of the search visits

The search for what is reachable goes on until the symbols that it has visited are a rearrangement of
those that it has found.  Taken alone, that comparison does not say that a pass gets anywhere, nor
that the search is over when nothing is left to visit: two lists of the same symbols are no
rearrangements of each other if one of them lists a symbol twice.

* The lists that are compared come from repeating `pass` from the start symbol (`symbols_eq_ok_iff`),
  and neither of them lists a symbol twice (`nodup_foundBefore`, `nodup_visitedBefore`).
* So the search goes on just as long as something has been found and not visited, and each pass
  visits all of that and nothing else (`passes_until_rearrangement`).
-/

namespace NormalGrammar
namespace Reachable

open Sequence Grammar

universe u

variable {g : Grammar} {found visited result : List Symbol} {limit passes k n : Nat}

/-! ## Single passes -/

/-- A pass visits what has been found and not visited, and finds what that mentions. -/
def pass (g : Grammar) (lists : List Symbol × List Symbol) : List Symbol × List Symbol :=
  let unvisited := lists.1.filter (· ∉ lists.2)
  (lists.1 ++ missing lists.1 (mentioned g unvisited), lists.2 ++ unvisited)

/-- What has been found before the pass with the number `n`, counted from zero. -/
def foundBefore (g : Grammar) (n : Nat) : List Symbol := ((pass g)^[n] ([g.start], [])).1

/-- What has been visited before the pass with the number `n`, counted from zero. -/
def visitedBefore (g : Grammar) (n : Nat) : List Symbol := ((pass g)^[n] ([g.start], [])).2

theorem visitedBefore_succ (g : Grammar) (n : Nat) : visitedBefore g (n + 1) =
    visitedBefore g n ++ (foundBefore g n).filter (· ∉ visitedBefore g n) := by
  rw [visitedBefore, Function.iterate_succ_apply']
  rfl

theorem foundBefore_succ (g : Grammar) (n : Nat) : foundBefore g (n + 1) =
    foundBefore g n ++ missing (foundBefore g n)
      (mentioned g ((foundBefore g n).filter (· ∉ visitedBefore g n))) := by
  rw [foundBefore, Function.iterate_succ_apply']
  rfl

/-- Before each pass, what has been visited has been found, together with all that it mentions. -/
theorem search_before (g : Grammar) (n : Nat) :
    Search g (foundBefore g n) (visitedBefore g n) := by
  induction n with
  | zero => exact .initial
  | succ n ih =>
    rw [foundBefore_succ, visitedBefore_succ]
    exact ih.pass

/-- No symbol is found twice. -/
theorem nodup_foundBefore (g : Grammar) (n : Nat) : (foundBefore g n).Nodup := by
  induction n with
  | zero => exact List.nodup_singleton _
  | succ n ih =>
    rw [foundBefore_succ]
    exact nodup_append_missing ih _

/-- Nor is one visited twice. -/
theorem nodup_visitedBefore (g : Grammar) (n : Nat) : (visitedBefore g n).Nodup := by
  induction n with
  | zero => exact List.nodup_nil
  | succ n ih =>
    rw [visitedBefore_succ]
    refine ih.append ((nodup_foundBefore g n).filter _) fun x hx hnew => ?_
    exact of_decide_eq_true (List.mem_filter.1 hnew).2 hx

/-- **There is a pass to make** just when something has been found and not visited. -/
theorem isRearrangement_before_eq_false_iff (g : Grammar) (n : Nat) :
    isRearrangement (foundBefore g n) (visitedBefore g n) = false ↔
      ∃ x ∈ foundBefore g n, x ∉ visitedBefore g n :=
  isRearrangement_eq_false_iff (nodup_foundBefore g n) (nodup_visitedBefore g n)
    (search_before g n).visited_subset

/-! ## The search -/

/-- The search ends before the pass with the number `n`: there, and not earlier, what has been visited is
a rearrangement of what has been found. -/
def EndsBefore (g : Grammar) (n : Nat) : Prop :=
  isRearrangement (foundBefore g n) (visitedBefore g n) = true ∧
    ∀ m < n, isRearrangement (foundBefore g m) (visitedBefore g m) = false

theorem EndsBefore.unique (hk : EndsBefore g k) (hn : EndsBefore g n) : k = n := by
  rcases Nat.lt_trichotomy k n with hlt | rfl | hlt
  · cases hk.1.symm.trans (hn.2 k hlt)
  · rfl
  · cases hn.1.symm.trans (hk.2 n hlt)

theorem explore_of_end (hend : isRearrangement found visited = true) :
    explore g limit passes found visited = .ok found := by
  unfold explore
  rw [if_pos hend]

theorem explore_zero (hmore : isRearrangement found visited = false) :
    explore g limit 0 found visited = .error (.unsettled .reachability limit) := by
  unfold explore
  rw [if_neg (Bool.not_eq_true _ ▸ hmore)]

theorem explore_succ
    (hmore : isRearrangement (foundBefore g k) (visitedBefore g k) = false) :
    explore g limit (passes + 1) (foundBefore g k) (visitedBefore g k) =
      explore g limit passes (foundBefore g (k + 1)) (visitedBefore g (k + 1)) := by
  rw [foundBefore_succ, visitedBefore_succ]
  conv_lhs => unfold explore
  rw [if_neg (Bool.not_eq_true _ ▸ hmore)]

theorem EndsBefore.explore_eq_ok_iff (hk : EndsBefore g k) :
    explore g limit passes (foundBefore g k) (visitedBefore g k) = .ok result ↔
      ∃ n ≤ k + passes, EndsBefore g n ∧ foundBefore g n = result := by
  rw [explore_of_end hk.1]
  constructor
  · intro h
    exact ⟨k, Nat.le_add_right k passes, hk, Except.ok.inj h⟩
  · rintro ⟨n, -, hn, rfl⟩
    rw [hk.unique hn]

/-- A search that has not ended earlier returns what it has found where it ends, if so many passes are
left. -/
theorem explore_before_eq_ok_iff
    (hbefore : ∀ m < k, isRearrangement (foundBefore g m) (visitedBefore g m) = false) :
    explore g limit passes (foundBefore g k) (visitedBefore g k) = .ok result ↔
      ∃ n ≤ k + passes, EndsBefore g n ∧ foundBefore g n = result := by
  induction passes generalizing k with
  | zero =>
    cases hend : isRearrangement (foundBefore g k) (visitedBefore g k) with
    | true => exact EndsBefore.explore_eq_ok_iff ⟨hend, hbefore⟩
    | false =>
      -- no pass is left, and the search has not ended so far
      rw [explore_zero hend]
      refine ⟨nofun, ?_⟩
      rintro ⟨n, hle, hn, -⟩
      rcases Nat.lt_or_eq_of_le hle with hlt | rfl
      · cases hn.1.symm.trans (hbefore n hlt)
      · cases hn.1.symm.trans hend
  | succ passes ih =>
    cases hend : isRearrangement (foundBefore g k) (visitedBefore g k) with
    | true => exact EndsBefore.explore_eq_ok_iff ⟨hend, hbefore⟩
    | false =>
      have hpasses : k + (passes + 1) = k + 1 + passes := by omega
      rw [explore_succ hend, hpasses]
      refine ih fun m hm => ?_
      rcases Nat.lt_succ_iff_lt_or_eq.1 hm with hlt | rfl
      · exact hbefore m hlt
      · exact hend

/-- The search returns what it has found where it ends, if the limit allows so many passes. -/
theorem symbols_eq_ok_iff : symbols limit g = .ok result ↔
    ∃ n ≤ limit, EndsBefore g n ∧ foundBefore g n = result := by
  have hstart : symbols limit g = explore g limit limit (foundBefore g 0) (visitedBefore g 0) := rfl
  rw [hstart, explore_before_eq_ok_iff fun m hm => absurd hm (Nat.not_lt_zero m), Nat.zero_add]

/-- **Passes are made until what has been visited is a rearrangement of what has been found.**
Two lists over a linear order are rearrangements of each other just when one is a permutation of the
other, that is, when every element occurs equally often in both.  The search compares its two lists
before each pass and returns what it has found where it ends.  Neither list repeats a symbol, and what
has been visited has been found; so it goes on just while something has been found and not visited, and
the next pass then visits all of that, which is something new. -/
theorem passes_until_rearrangement :
    (∀ (α : Type u) [DecidableEq α] [LE α] [DecidableLE α] [Std.IsLinearOrder α] (xs ys : List α),
      (isRearrangement xs ys = true ↔ ys.Perm xs) ∧
        (isRearrangement xs ys = true ↔ ∀ x, ys.count x = xs.count x)) ∧
    ∀ g : Grammar,
      (∀ limit result, symbols limit g = .ok result ↔
        ∃ n ≤ limit, EndsBefore g n ∧ foundBefore g n = result) ∧
      ∀ n, (foundBefore g n).Nodup ∧ (visitedBefore g n).Nodup ∧
        visitedBefore g n ⊆ foundBefore g n ∧
        (isRearrangement (foundBefore g n) (visitedBefore g n) = false ↔
          ∃ x ∈ foundBefore g n, x ∉ visitedBefore g n) ∧
        (isRearrangement (foundBefore g n) (visitedBefore g n) = false →
          ∃ new ≠ [], visitedBefore g (n + 1) = visitedBefore g n ++ new ∧
            ∀ x, x ∈ new ↔ x ∈ foundBefore g n ∧ x ∉ visitedBefore g n) := by
  constructor
  · intro α _ _ _ _ xs ys
    have hperm : isRearrangement xs ys = true ↔ ys.Perm xs :=
      isRearrangement_iff_perm.trans List.perm_comm
    exact ⟨hperm, hperm.trans List.perm_iff_count⟩
  · refine fun g => ⟨fun limit result => symbols_eq_ok_iff, fun n => ⟨nodup_foundBefore g n,
      nodup_visitedBefore g n, (search_before g n).visited_subset,
      isRearrangement_before_eq_false_iff g n, fun hmore => ?_⟩⟩
    obtain ⟨x, hx, hnew⟩ := (isRearrangement_before_eq_false_iff g n).1 hmore
    have hmem : ∀ y, y ∈ (foundBefore g n).filter (· ∉ visitedBefore g n) ↔
        y ∈ foundBefore g n ∧ y ∉ visitedBefore g n := by simp
    exact ⟨_, List.ne_nil_of_mem ((hmem x).2 ⟨hx, hnew⟩), visitedBefore_succ g n, hmem⟩

/-- A grammar in which every pass finds something, and `W` and `h` are mentioned again later. -/
def winding : Grammar where
  start := ⟨"W"⟩
  nonterminals := [⟨"W"⟩, ⟨"H"⟩, ⟨"K"⟩]
  terminals := [⟨"h"⟩, ⟨"k"⟩]
  rules := [.ofHead ⟨"W"⟩ [⟨"H"⟩, ⟨"h"⟩], .ofHead ⟨"H"⟩ [⟨"h"⟩, ⟨"K"⟩], .ofHead ⟨"K"⟩ [⟨"W"⟩, ⟨"k"⟩]]
  nodup_nonterminals := by decide
  nodup_terminals := by decide
  wellFormed := defect?_eq_none_iff.1 (by decide)

/-- Numbers that are a rearrangement and numbers that are none; and the pass in which the search of
`winding` visits `K`. -/
theorem winding_passes : isRearrangement [2, 1, 2] [1, 2, 2] = true ∧
    isRearrangement [2, 1, 2] [1, 2, 1] = false ∧
    foundBefore winding 2 = [⟨"W"⟩, ⟨"H"⟩, ⟨"h"⟩, ⟨"K"⟩] ∧
    visitedBefore winding 2 = [⟨"W"⟩, ⟨"H"⟩, ⟨"h"⟩] ∧
    isRearrangement (foundBefore winding 2) (visitedBefore winding 2) = false ∧
    ∃ new ≠ [], visitedBefore winding 3 = visitedBefore winding 2 ++ new ∧
      ∀ x, x ∈ new ↔ x ∈ foundBefore winding 2 ∧ x ∉ visitedBefore winding 2 := by
  obtain ⟨hcompare, hsearch⟩ := passes_until_rearrangement
  have hsame : isRearrangement [2, 1, 2] [1, 2, 2] = true :=
    (hcompare Nat _ _).1.2 (by decide)
  have hdifferent : ¬ isRearrangement [2, 1, 2] [1, 2, 1] = true := fun h =>
    absurd ((hcompare Nat _ _).1.1 h) (by decide)
  have hfound : foundBefore winding 2 = [⟨"W"⟩, ⟨"H"⟩, ⟨"h"⟩, ⟨"K"⟩] := by decide
  have hvisited : visitedBefore winding 2 = [⟨"W"⟩, ⟨"H"⟩, ⟨"h"⟩] := by decide
  have hK : ⟨"K"⟩ ∈ foundBefore winding 2 ∧ ⟨"K"⟩ ∉ visitedBefore winding 2 := by
    rw [hfound, hvisited]
    decide
  obtain ⟨-, -, -, hiff, hnext⟩ := (hsearch winding).2 2
  have hmore := hiff.2 ⟨_, hK⟩
  exact ⟨hsame, Bool.eq_false_iff.2 hdifferent, hfound, hvisited, hmore, hnext hmore⟩

end Reachable
end NormalGrammar
