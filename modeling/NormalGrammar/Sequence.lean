/-!
# Lists read as sets and as sequences

A grammar declares its symbols in an order that its printed form shows, so sets of symbols are
lists without repetitions.  This file holds the list operations that the rest of the library is
built on: dropping repetitions (`distinct`), finding occurrences (`positions`), adding what is
missing (`missing`) and comparing up to reordering (`isRearrangement`).
-/

namespace NormalGrammar
namespace Sequence

universe u

variable {α : Type u} [DecidableEq α]

/-! ## Dropping repetitions -/

/-- The elements of a list, each once, at the place of its first occurrence. -/
def distinct : List α → List α
  | [] => []
  | x :: xs => x :: (distinct xs).filter (· ≠ x)

@[simp]
theorem mem_distinct {x : α} {xs : List α} : x ∈ distinct xs ↔ x ∈ xs := by
  induction xs with
  | nil => simp [distinct]
  | cons y ys ih =>
    by_cases h : x = y
    · simp [distinct, h]
    · simp [distinct, h, ih]

theorem nodup_distinct (xs : List α) : (distinct xs).Nodup := by
  induction xs with
  | nil => simp [distinct]
  | cons y ys ih =>
    rw [distinct, List.nodup_cons]
    exact ⟨by simp, ih.filter _⟩

theorem distinct_eq_self {xs : List α} (h : xs.Nodup) : distinct xs = xs := by
  induction xs with
  | nil => rfl
  | cons y ys ih =>
    obtain ⟨hy, hys⟩ := List.nodup_cons.1 h
    rw [distinct, ih hys, List.filter_eq_self.2]
    intro z hz
    have hzy : z ≠ y := fun e => hy (e ▸ hz)
    simpa using hzy

/-- The elements of `candidates` that `present` lacks, each once, in order. -/
def missing (present candidates : List α) : List α :=
  distinct (candidates.filter (· ∉ present))

@[simp]
theorem mem_missing {x : α} {present candidates : List α} :
    x ∈ missing present candidates ↔ x ∈ candidates ∧ x ∉ present := by
  simp [missing]

/-- Adding what is missing to a list without repetitions repeats nothing. -/
theorem nodup_append_missing {present : List α} (h : present.Nodup) (candidates : List α) :
    (present ++ missing present candidates).Nodup := by
  rw [List.nodup_append]
  refine ⟨h, nodup_distinct _, ?_⟩
  intro x hx y hy hxy
  exact (mem_missing.1 hy).2 (hxy ▸ hx)

/-! ## Occurrences -/

/-- The places, counted from zero, at which `x` occurs. -/
def positions (x : α) : List α → List Nat
  | [] => []
  | y :: ys =>
    let later := (positions x ys).map (· + 1)
    if y = x then 0 :: later else later

/-- The place of the `n`th occurrence, counted from zero. -/
def occurrence? (x : α) (xs : List α) (n : Nat) : Option Nat :=
  (positions x xs)[n]?

/-- The lists that are left when one occurrence of `x` is dropped, first occurrence first. -/
def droppingOne (x : α) (xs : List α) : List (List α) :=
  (positions x xs).map xs.eraseIdx

@[simp]
theorem droppingOne_nil (x : α) : droppingOne x [] = [] := rfl

/-- Either the head is dropped, if it is `x`, or an occurrence after it. -/
theorem droppingOne_cons (x y : α) (ys : List α) :
    droppingOne x (y :: ys) =
      (if y = x then [ys] else []) ++ (droppingOne x ys).map (y :: ·) := by
  by_cases h : y = x <;>
    simp [droppingOne, positions, h, List.map_map, Function.comp_def]

/-- Whether one of the sequences of `collection` is `sequence`. -/
def hasSequence (collection : List (List α)) (sequence : List α) : Bool :=
  collection.any (· == sequence)

/-! ## Comparison up to reordering -/

/-- Whether two lists hold the same elements equally often, in whatever order. -/
def isRearrangement [LE α] [DecidableLE α] (xs ys : List α) : Bool :=
  xs.length == ys.length &&
    xs.mergeSort (fun a b => decide (a ≤ b)) == ys.mergeSort (fun a b => decide (a ≤ b))

end Sequence
end NormalGrammar
