import NormalGrammar.Grammar.Basic

/-!
# The words that symbols derive

A sequence of symbols derives a word by replacing its symbols from left to right: `ε` by nothing, a
terminal by itself, and any other symbol by a word that the right side of one of its rules derives.
The height of a derivation is the number of nested replacements by rules, and its size is the number
of all of them.  This is the meaning of rules with a single symbol on the left.
-/

namespace NormalGrammar
namespace Grammar

/-- `g.DerivesWith xs w h n` says that `xs` derives the word `w` with height `h` and size `n`. -/
inductive DerivesWith (g : Grammar) : List Symbol → List Symbol → Nat → Nat → Prop
  | nil : DerivesWith g [] [] 0 0
  | epsilon {xs w : List Symbol} {h n : Nat} :
      DerivesWith g xs w h n → DerivesWith g (Symbol.epsilon :: xs) w h n
  | terminal {a : Symbol} {xs w : List Symbol} {h n : Nat} :
      a ∈ g.terminals → DerivesWith g xs w h n → DerivesWith g (a :: xs) (a :: w) h n
  | expand {x : Symbol} {rule : Rule} {xs v w : List Symbol} {h k n m : Nat} :
      rule ∈ g.rulesOf x → DerivesWith g rule.right v h n → DerivesWith g xs w k m →
      DerivesWith g (x :: xs) (v ++ w) (max (h + 1) k) (n + 1 + m)

/-- Whether a sequence of symbols derives a word. -/
def Derives (g : Grammar) (xs w : List Symbol) : Prop := ∃ h n, g.DerivesWith xs w h n

/-- Whether a word is derived from the start symbol. -/
def Generates (g : Grammar) (w : List Symbol) : Prop := g.Derives [g.start] w

/-- Whether a symbol derives some word. -/
def IsProductive (g : Grammar) (x : Symbol) : Prop := ∃ w, g.Derives [x] w

/-- Whether a symbol derives the empty word. -/
def IsNullable (g : Grammar) (x : Symbol) : Prop := g.Derives [x] []

variable {g : Grammar}

theorem DerivesWith.append {xs ys v w : List Symbol} {h k n m : Nat}
    (hx : g.DerivesWith xs v h n) (hy : g.DerivesWith ys w k m) :
    g.DerivesWith (xs ++ ys) (v ++ w) (max h k) (n + m) := by
  induction hx with
  | nil => simpa using hy
  | epsilon _ ih => exact .epsilon ih
  | terminal ha _ ih => exact .terminal ha ih
  | @expand x rule xs u v h' k' n' m' hrule hright _ _ ih =>
    have := DerivesWith.expand hrule hright ih
    rw [List.append_assoc, Nat.max_assoc, Nat.add_assoc]
    exact this

theorem DerivesWith.split {xs ys w : List Symbol} {h n : Nat}
    (d : g.DerivesWith (xs ++ ys) w h n) :
    ∃ u v h₁ h₂ n₁ n₂, w = u ++ v ∧ h = max h₁ h₂ ∧ n = n₁ + n₂ ∧
      g.DerivesWith xs u h₁ n₁ ∧ g.DerivesWith ys v h₂ n₂ := by
  induction xs generalizing w h n with
  | nil => exact ⟨[], w, 0, h, 0, n, rfl, by simp, by simp, .nil, d⟩
  | cons x xs ih =>
    rw [List.cons_append] at d
    cases d with
    | epsilon d =>
      obtain ⟨u, v, h₁, h₂, n₁, n₂, hw, hh, hn, dx, dy⟩ := ih d
      exact ⟨u, v, h₁, h₂, n₁, n₂, hw, hh, hn, .epsilon dx, dy⟩
    | terminal ha d =>
      obtain ⟨u, v, h₁, h₂, n₁, n₂, rfl, hh, hn, dx, dy⟩ := ih d
      exact ⟨x :: u, v, h₁, h₂, n₁, n₂, rfl, hh, hn, .terminal ha dx, dy⟩
    | expand hrule dr d =>
      obtain ⟨u, v, h₁, h₂, n₁, n₂, rfl, rfl, rfl, dx, dy⟩ := ih d
      exact ⟨_ ++ u, v, _, h₂, _, n₂, (List.append_assoc ..).symm, (Nat.max_assoc ..).symm,
        (Nat.add_assoc ..).symm, .expand hrule dr dx, dy⟩

/-- Two sequences together derive what one derives before what the other derives. -/
theorem derives_append_iff {xs ys w : List Symbol} :
    g.Derives (xs ++ ys) w ↔ ∃ u v, w = u ++ v ∧ g.Derives xs u ∧ g.Derives ys v := by
  constructor
  · rintro ⟨h, n, d⟩
    obtain ⟨u, v, h₁, h₂, n₁, n₂, hw, -, -, dx, dy⟩ := d.split
    exact ⟨u, v, hw, ⟨h₁, n₁, dx⟩, ⟨h₂, n₂, dy⟩⟩
  · rintro ⟨u, v, rfl, ⟨_, _, dx⟩, ⟨_, _, dy⟩⟩
    exact ⟨_, _, dx.append dy⟩

theorem DerivesWith.forall_mem_terminals {xs w : List Symbol} {h n : Nat}
    (d : g.DerivesWith xs w h n) : ∀ a ∈ w, a ∈ g.terminals := by
  induction d with
  | nil => simp
  | epsilon _ ih => exact ih
  | terminal ha _ ih => simpa [ha] using ih
  | expand _ _ _ ihr ih =>
    intro a ha
    rcases List.mem_append.1 ha with ha | ha
    · exact ihr a ha
    · exact ih a ha

end Grammar
end NormalGrammar
