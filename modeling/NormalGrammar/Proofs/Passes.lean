import Mathlib.Data.List.Nodup
import NormalGrammar.Proofs.Productive
import NormalGrammar.Proofs.Reachable

/-!
# How many passes a search takes

Both searches find something new in each pass but the last, so they are over after as many passes as
there are symbols to find.

* `isRearrangement_iff_perm`: what is sorted in the same way is a permutation, and the other way
  round, as names are linearly ordered.
* `Reachable.exists_explore`: each pass visits a symbol that was found and not yet visited.
* `Productive.exists_explore`: each pass finds a nonterminal that was not yet known.
-/

namespace NormalGrammar

open Sequence

/-! ## Comparing by sorting -/

/-- Names are linearly ordered, and so are symbols. -/
instance : Std.IsLinearOrder Symbol where
  le_refl x := String.le_refl x.name
  le_trans _ _ _ h k := String.le_trans h k
  le_antisymm _ _ h k := congrArg Symbol.mk (String.le_antisymm h k)
  le_total x y := String.le_total x.name y.name

namespace Sequence

universe u

variable {α : Type u} [DecidableEq α] [LE α] [DecidableLE α] [Std.IsLinearOrder α] {xs ys : List α}

/-- **Two lists are rearrangements** just when each element occurs equally often in both. -/
theorem isRearrangement_iff_perm : isRearrangement xs ys = true ↔ xs.Perm ys := by
  refine ⟨perm_of_isRearrangement, fun h => ?_⟩
  have hsorted : ∀ zs : List α,
      (zs.mergeSort fun a b => decide (a ≤ b)).Pairwise fun a b => a ≤ b := by
    intro zs
    have hpairwise : (zs.mergeSort fun a b => decide (a ≤ b)).Pairwise
        fun a b => decide (a ≤ b) = true :=
      List.pairwise_mergeSort (fun a b c => by simpa using Std.IsPreorder.le_trans a b c)
        (fun a b => by simpa using Std.Total.total a b) zs
    simpa using hpairwise
  have hperm : (xs.mergeSort fun a b => decide (a ≤ b)).Perm
      (ys.mergeSort fun a b => decide (a ≤ b)) :=
    ((List.mergeSort_perm xs _).trans h).trans (List.mergeSort_perm ys _).symm
  have heq := hperm.eq_of_pairwise
    (fun a b _ _ hab hba => Std.IsPartialOrder.le_antisymm a b hab hba) (hsorted xs) (hsorted ys)
  simp [isRearrangement, h.length_eq, heq]

end Sequence

/-! ## Searching for what is reachable -/

namespace Reachable

open Grammar

variable {g : Grammar} {found visited : List Symbol} {limit passes : Nat}

/-- Where symbols are listed once, and only those visited that were found, there is a pass to make
just when some symbol that was found has not been visited. -/
theorem isRearrangement_eq_false_iff (hfound : found.Nodup) (hvisited : visited.Nodup)
    (hsub : visited ⊆ found) :
    isRearrangement found visited = false ↔ ∃ x ∈ found, x ∉ visited := by
  rw [← Bool.not_eq_true, isRearrangement_iff_perm, List.perm_ext_iff_of_nodup hfound hvisited]
  constructor
  · intro h
    by_contra hall
    push Not at hall
    exact h fun x => ⟨hall x, fun hx => hsub hx⟩
  · rintro ⟨x, hx, hnew⟩ h
    exact hnew ((h x).1 hx)

/-- **A search ends** if there are as many passes left as there are symbols that were not visited. -/
theorem exists_explore (search : Search g found visited) (hfound : found.Nodup)
    (hvisited : visited.Nodup)
    (hpasses : (g.nonterminals ++ g.terminals).length ≤ visited.length + passes) :
    ∃ result, explore g limit passes found visited = .ok result := by
  fun_induction explore g limit passes found visited with
  | case1 passes found visited hall => exact ⟨found, rfl⟩
  | case2 found visited hmore =>
    -- something was found and not visited, so fewer symbols were visited than are declared
    obtain ⟨x, hx, hnew⟩ := (isRearrangement_eq_false_iff hfound hvisited
      search.visited_subset).1 (Bool.not_eq_true _ ▸ hmore)
    have hsub : x :: visited ⊆ g.nonterminals ++ g.terminals := fun y hy =>
      (search.reachable y (List.cons_subset.2 ⟨hx, search.visited_subset⟩ hy)).declared
    have hlength := (List.nodup_cons.2 ⟨hnew, hvisited⟩).length_le_of_subset hsub
    simp only [List.length_cons] at hlength
    omega
  | case3 found visited hmore passes unvisited ih =>
    obtain ⟨x, hx, hnew⟩ := (isRearrangement_eq_false_iff hfound hvisited
      search.visited_subset).1 (Bool.not_eq_true _ ▸ hmore)
    have hpos : 0 < unvisited.length := by
      refine List.length_pos_of_mem (a := x) (List.mem_filter.2 ⟨hx, ?_⟩)
      simpa using hnew
    refine ih search.pass (nodup_append_missing hfound _) ?_ ?_
    · refine hvisited.append (hfound.filter _) fun y hy hy' => ?_
      exact of_decide_eq_true (List.mem_filter.1 hy').2 hy
    · simp only [List.length_append] at hpasses ⊢
      omega

theorem exists_symbols (h : g.nonterminals.length + g.terminals.length ≤ limit) :
    ∃ found, Reachable.symbols limit g = .ok found :=
  exists_explore .initial (by simp) List.nodup_nil (by simpa using h)

end Reachable

/-! ## Searching for what is productive -/

namespace Productive

variable {g : Grammar} {known : List Symbol} {limit passes : Nat}

/-- **The passes end** if there are more of them left than there are nonterminals that are not known. -/
theorem exists_explore (hcf : g.isContextFree = true) (sound : Sound g known)
    (hknown : known.Nodup) (hpasses : g.nonterminals.length < known.length + passes) :
    ∃ result, explore g limit passes known = .ok result := by
  fun_induction explore g limit passes known with
  | case1 known =>
    have hlength := hknown.length_le_of_subset fun x hx => (sound x hx).1
    omega
  | case2 passes known => exact ⟨known, rfl⟩
  | case3 passes known found hmore ih =>
    have hpos : 0 < found.length := List.length_pos_iff.2 hmore
    refine ih (fun x hx => ?_) (nodup_append_missing hknown _) ?_
    · rcases List.mem_append.1 hx with hx | hx
      · exact sound x hx
      · exact sound.heads hcf x (mem_missing.1 hx).1
    · rw [List.length_append]
      omega

theorem exists_symbols (hcf : g.isContextFree = true) (h : g.nonterminals.length < limit) :
    ∃ known, symbols limit g = .ok known := by
  have hnil : Sound g [] := fun x hx => nomatch hx
  refine exists_explore hcf (fun x hx => hnil.heads hcf x (mem_distinct.1 hx)) (nodup_distinct _) ?_
  omega

end Productive

end NormalGrammar
