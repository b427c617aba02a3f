import Mathlib.Data.List.FinRange
import Mathlib.Order.Lattice.Nat
import NormalGrammar.Proofs.Simulation

/-!
# How high a derivation has to be

What is the least height of a derivation from a symbol, and how large can it be?

* A sequence is derived within a height just if each of its symbols is (`DerivesWith.exists_le_of_mem`,
  `exists_derivesWith_le`), and a positive height is that of a right side and one more
  (`succ_mem_derivationHeights_iff`).
* Below a least height there is no gap: some symbol has the next smaller one as its least height
  (`exists_isLeast_of_succ`).  As each of these symbols has a rule of its own, no least height is
  larger than the number of rules (`le_length_rules_of_isLeast`).
-/

namespace NormalGrammar
namespace Grammar

variable {g : Grammar} {rule : Rule} {x y : Symbol} {xs w : List Symbol} {b h j k n : Nat}

/-- The heights of the derivations from a symbol. -/
def derivationHeights (g : Grammar) (x : Symbol) : Set Nat := {h | ∃ w n, g.DerivesWith [x] w h n}

theorem derivationHeights_nonempty_iff : (g.derivationHeights x).Nonempty ↔ g.IsProductive x := by
  constructor
  · rintro ⟨h, w, n, d⟩
    exact ⟨w, h, n, d⟩
  · rintro ⟨w, h, n, d⟩
    exact ⟨h, w, n, d⟩

/-! ## Sequences and right sides -/

/-- A symbol of a sequence is derived within the height in which the sequence is. -/
theorem DerivesWith.exists_le_of_mem (d : g.DerivesWith xs w h n) (hx : x ∈ xs) :
    ∃ k ≤ h, k ∈ g.derivationHeights x := by
  induction xs generalizing w h n with
  | nil => cases hx
  | cons y ys ih =>
    have dsplit : g.DerivesWith ([y] ++ ys) w h n := d
    obtain ⟨u, v, h₁, h₂, n₁, n₂, rfl, rfl, rfl, dy, dys⟩ := dsplit.split
    rcases List.mem_cons.1 hx with rfl | hx
    · exact ⟨h₁, Nat.le_max_left h₁ h₂, u, n₁, dy⟩
    · obtain ⟨k, hle, hk⟩ := ih dys hx
      exact ⟨k, Nat.le_trans hle (Nat.le_max_right h₁ h₂), hk⟩

/-- A sequence is derived within a height if each of its symbols is. -/
theorem exists_derivesWith_le (hxs : ∀ x ∈ xs, ∃ k ≤ b, k ∈ g.derivationHeights x) :
    ∃ h ≤ b, ∃ w n, g.DerivesWith xs w h n := by
  induction xs with
  | nil => exact ⟨0, Nat.zero_le b, [], 0, .nil⟩
  | cons x xs ih =>
    obtain ⟨⟨h, hh, u, n, dx⟩, hxs⟩ := List.forall_mem_cons.1 hxs
    obtain ⟨k, hk, v, m, dxs⟩ := ih hxs
    exact ⟨max h k, Nat.max_le.2 ⟨hh, hk⟩, u ++ v, n + m, dx.append dxs⟩

/-- A positive height is one more than that of a derivation from a right side. -/
theorem succ_mem_derivationHeights_iff : h + 1 ∈ g.derivationHeights x ↔
    ∃ rule ∈ g.rulesOf x, ∃ w n, g.DerivesWith rule.right w h n := by
  constructor
  · rintro ⟨w, n, d⟩
    generalize hk : h + 1 = k at d
    cases d with
    | epsilon d => cases d; omega
    | terminal _ d => cases d; omega
    | @expand _ rule _ v _ i _ m _ hrule dr d =>
      cases d
      obtain rfl : h = i := by simpa using hk
      exact ⟨rule, hrule, v, m, dr⟩
  · rintro ⟨rule, hrule, w, n, d⟩
    exact ⟨w ++ [], n + 1 + 0, by simpa using DerivesWith.expand hrule d .nil⟩

theorem pos_of_mem_derivationHeights (hx : x ∈ g.nonterminals) (hh : h ∈ g.derivationHeights x) :
    0 < h := by
  obtain ⟨w, n, d⟩ := hh
  cases d with
  | epsilon _ => exact absurd rfl (ne_epsilon_of_mem_nonterminals hx)
  | terminal ha _ => exact absurd ha (not_mem_terminals hx)
  | expand _ _ _ => omega

/-! ## Least heights -/

theorem exists_lt_of_not_isLeast (hx : k ∈ g.derivationHeights x)
    (hleast : ¬ IsLeast (g.derivationHeights x) k) : ∃ j < k, j ∈ g.derivationHeights x := by
  by_contra hnone
  refine hleast ⟨hx, fun j hj => ?_⟩
  by_contra hlt
  exact hnone ⟨j, not_le.1 hlt, hj⟩

/-- A symbol that is derived at all is derived at a least height. -/
theorem exists_isLeast_le (hx : h ∈ g.derivationHeights x) :
    ∃ k ≤ h, IsLeast (g.derivationHeights x) k :=
  ⟨sInf (g.derivationHeights x), Nat.sInf_le hx, Nat.sInf_mem ⟨h, hx⟩, fun _ => Nat.sInf_le⟩

/-- **Least heights leave no gap**: a lowest derivation passes through a symbol whose least height is
the next smaller one. -/
theorem exists_isLeast_of_succ (hx : IsLeast (g.derivationHeights x) (h + 1)) (hpos : 0 < h) :
    ∃ y, IsLeast (g.derivationHeights y) h := by
  obtain ⟨rule, hrule, w, n, d⟩ := succ_mem_derivationHeights_iff.1 hx.1
  by_contra hnone
  -- otherwise the symbols of the right side, and so `x`, would be derived within less
  have hlower : ∀ y ∈ rule.right, ∃ k ≤ h - 1, k ∈ g.derivationHeights y := by
    intro y hy
    obtain ⟨k, hle, hk⟩ := d.exists_le_of_mem hy
    by_cases hkh : k = h
    · subst hkh
      obtain ⟨j, hj, hmem⟩ := exists_lt_of_not_isLeast hk fun hleast => hnone ⟨y, hleast⟩
      exact ⟨j, by omega, hmem⟩
    · exact ⟨k, by omega, hk⟩
  obtain ⟨k, hk, v, m, dv⟩ := exists_derivesWith_le hlower
  have hle : h + 1 ≤ k + 1 := hx.2 (succ_mem_derivationHeights_iff.2 ⟨rule, hrule, v, m, dv⟩)
  omega

/-- So every smaller positive height is a least one, of a symbol with a rule. -/
theorem exists_isLeast_of_le (hx : IsLeast (g.derivationHeights x) h) (hpos : 0 < j) (hle : j ≤ h) :
    ∃ y, IsLeast (g.derivationHeights y) j ∧ ∃ rule, rule ∈ g.rulesOf y := by
  induction h generalizing x with
  | zero => omega
  | succ h ih =>
    by_cases hj : j = h + 1
    · subst hj
      obtain ⟨rule, hrule, -⟩ := succ_mem_derivationHeights_iff.1 hx.1
      exact ⟨x, hx, rule, hrule⟩
    · obtain ⟨y, hy⟩ := exists_isLeast_of_succ hx (by omega)
      exact ih hy (by omega)

/-- **No least height is larger than the number of rules**: each smaller one takes a rule of its
own. -/
theorem le_length_rules_of_isLeast (hx : IsLeast (g.derivationHeights x) h) : h ≤ g.rules.length := by
  have hlevels : ∀ j : Fin h, ∃ rule ∈ g.rules, ∃ y, rule.head? = some y ∧
      IsLeast (g.derivationHeights y) (j + 1) := by
    intro j
    obtain ⟨y, hy, rule, hrule⟩ := exists_isLeast_of_le hx (Nat.succ_pos j) j.isLt
    obtain ⟨hmem, hhead⟩ := mem_rulesOf.1 hrule
    exact ⟨rule, hmem, y, hhead, hy⟩
  choose level hmem head hhead hleast using hlevels
  have hinjective : Function.Injective level := by
    intro i j hij
    have hheads : head i = head j := Option.some.inj ((hhead i).symm.trans (hij ▸ hhead j))
    have hleast' : IsLeast (g.derivationHeights (head i)) (j + 1) := hheads ▸ hleast j
    have := (hleast i).unique hleast'
    exact Fin.ext (by omega)
  have hsubset : List.ofFn level ⊆ g.rules := by
    intro rule hrule
    obtain ⟨j, rfl⟩ := List.mem_ofFn.1 hrule
    exact hmem j
  calc h = (List.ofFn level).length := (List.length_ofFn).symm
    _ ≤ g.rules.length := (List.nodup_ofFn.2 hinjective).length_le_of_subset hsubset

end Grammar
end NormalGrammar
