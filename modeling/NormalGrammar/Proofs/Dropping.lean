import NormalGrammar.Sequence

/-!
# Leaving out occurrences

`Drops p xs ys` says that `ys` is left of `xs` when some occurrences of elements with the property
`p` are left out, in whatever order.  A single occurrence is left out by `droppingOne`; any number
of them by repeating it (`drops_eq_or_droppingOne`), and leaving out elements of two kinds can be
done one kind after the other (`Drops.exists_between`).
-/

namespace NormalGrammar
namespace Sequence

universe u

variable {α : Type u} {p q : α → Prop} {x : α} {xs ys zs : List α}

/-- The second list is left of the first when occurrences of elements with a property are left
out. -/
inductive Drops (p : α → Prop) : List α → List α → Prop
  | nil : Drops p [] []
  | keep (x : α) {xs ys : List α} : Drops p xs ys → Drops p (x :: xs) (x :: ys)
  | drop {x : α} {xs ys : List α} : p x → Drops p xs ys → Drops p (x :: xs) ys

theorem Drops.refl : ∀ xs : List α, Drops p xs xs
  | [] => .nil
  | x :: xs => .keep x (Drops.refl xs)

theorem Drops.subset (h : Drops p xs ys) : ys ⊆ xs := by
  induction h with
  | nil => exact List.Subset.refl _
  | keep x _ ih => exact List.cons_subset_cons x ih
  | drop _ _ ih => exact List.subset_cons_of_subset _ ih

/-- The property need only be weakened on what is there. -/
theorem Drops.mono (h : Drops p xs ys) (hpq : ∀ x ∈ xs, p x → q x) : Drops q xs ys := by
  induction h with
  | nil => exact .nil
  | keep x _ ih => exact .keep x (ih fun y hy => hpq y (List.mem_cons_of_mem _ hy))
  | drop hx _ ih =>
    exact .drop (hpq _ (List.mem_cons_self ..) hx)
      (ih fun y hy => hpq y (List.mem_cons_of_mem _ hy))

theorem Drops.trans (h : Drops p xs ys) (k : Drops p ys zs) : Drops p xs zs := by
  induction h generalizing zs with
  | nil => exact k
  | keep x _ ih =>
    cases k with
    | keep _ k => exact .keep x (ih k)
    | drop hx k => exact .drop hx (ih k)
  | drop hx _ ih => exact .drop hx (ih k)

theorem Drops.eq_nil (h : Drops p [] ys) : ys = [] := by
  cases h
  rfl

/-- All can be left out just when all have the property. -/
theorem drops_nil_iff : Drops p xs [] ↔ ∀ x ∈ xs, p x := by
  induction xs with
  | nil => exact ⟨fun _ x hx => absurd hx List.not_mem_nil, fun _ => .nil⟩
  | cons x xs ih =>
    constructor
    · intro h
      cases h with
      | drop hx h => exact List.forall_mem_cons.2 ⟨hx, ih.1 h⟩
    · intro h
      obtain ⟨hx, hxs⟩ := List.forall_mem_cons.1 h
      exact .drop hx (ih.2 hxs)

theorem Drops.eq_self (h : Drops p xs ys) (hp : ∀ x ∈ xs, ¬ p x) : ys = xs := by
  induction h with
  | nil => rfl
  | keep x _ ih => rw [ih fun y hy => hp y (List.mem_cons_of_mem _ hy)]
  | drop hx _ _ => exact absurd hx (hp _ (List.mem_cons_self ..))

/-- Elements of one kind can be left out before those of another. -/
theorem Drops.exists_between (h : Drops (fun x => p x ∨ q x) xs zs) :
    ∃ ys, Drops q xs ys ∧ Drops p ys zs := by
  induction h with
  | nil => exact ⟨[], .nil, .nil⟩
  | keep x _ ih =>
    obtain ⟨ys, hq, hp⟩ := ih
    exact ⟨x :: ys, .keep x hq, .keep x hp⟩
  | @drop x xs zs hx _ ih =>
    obtain ⟨ys, hq, hp⟩ := ih
    rcases hx with hx | hx
    · exact ⟨x :: ys, .keep x hq, .drop hx hp⟩
    · exact ⟨ys, .drop hx hq, hp⟩

section Occurrences

variable [DecidableEq α]

/-- Where one occurrence is left out, what stands before it is followed by what stands after it. -/
theorem exists_append_of_mem_droppingOne (h : ys ∈ droppingOne x xs) :
    ∃ front back, xs = front ++ x :: back ∧ ys = front ++ back := by
  induction xs generalizing ys with
  | nil => cases h
  | cons y xs ih =>
    rw [droppingOne_cons, List.mem_append] at h
    rcases h with h | h
    · split at h
      · rename_i hyx
        subst hyx
        exact ⟨[], xs, rfl, List.mem_singleton.1 h⟩
      · cases h
    · obtain ⟨zs, hzs, rfl⟩ := List.mem_map.1 h
      obtain ⟨front, back, rfl, rfl⟩ := ih hzs
      exact ⟨y :: front, back, rfl, rfl⟩

theorem mem_of_mem_droppingOne (h : ys ∈ droppingOne x xs) : x ∈ xs := by
  obtain ⟨front, back, rfl, -⟩ := exists_append_of_mem_droppingOne h
  exact List.mem_append_right _ (List.mem_cons_self ..)

theorem length_of_mem_droppingOne (h : ys ∈ droppingOne x xs) : ys.length < xs.length := by
  obtain ⟨front, back, rfl, rfl⟩ := exists_append_of_mem_droppingOne h
  simp

theorem count_of_mem_droppingOne (h : ys ∈ droppingOne x xs) : xs.count x = ys.count x + 1 := by
  obtain ⟨front, back, rfl, rfl⟩ := exists_append_of_mem_droppingOne h
  rw [List.count_append, List.count_cons_self, List.count_append, Nat.add_assoc]

/-- Leaving out one occurrence of an element is leaving out occurrences of it. -/
theorem drops_of_mem_droppingOne (h : ys ∈ droppingOne x xs) : Drops (· = x) xs ys := by
  obtain ⟨front, back, rfl, rfl⟩ := exists_append_of_mem_droppingOne h
  clear h
  induction front with
  | nil => exact .drop rfl (.refl back)
  | cons y front ih => exact .keep y ih

/-- Occurrences of an element are left out one at a time. -/
theorem drops_eq_or_droppingOne (h : Drops (· = x) xs zs) :
    zs = xs ∨ ∃ ys ∈ droppingOne x xs, Drops (· = x) ys zs := by
  induction h with
  | nil => exact .inl rfl
  | keep y _ ih =>
    rcases ih with rfl | ⟨ys, hys, h⟩
    · exact .inl rfl
    · refine .inr ⟨y :: ys, ?_, .keep y h⟩
      rw [droppingOne_cons]
      exact List.mem_append_right _ (List.mem_map_of_mem hys)
  | @drop y xs zs hy h _ =>
    refine .inr ⟨xs, ?_, h⟩
    rw [droppingOne_cons, if_pos hy]
    exact List.mem_append_left _ (List.mem_singleton_self _)

end Occurrences

end Sequence
end NormalGrammar
