import NormalGrammar.Proofs.Shape

/-!
# Carrying derivations from one grammar to another

The words of a symbol are the words of its right sides (`derives_nonterminal_iff`).  A grammar
derives what another one derives as soon as each rule of the other can be replayed, the symbols
that matter being closed under rules (`Derives.simulate`); the stages on the way to normal form are
compared through this one statement.
-/

namespace NormalGrammar
namespace Grammar

variable {g h : Grammar} {rule : Rule} {x y : Symbol} {xs ys v w : List Symbol}

/-! ## Words of single symbols -/

@[simp]
theorem derives_nil_iff : g.Derives [] w ↔ w = [] := by
  constructor
  · rintro ⟨k, n, d⟩
    cases d
    rfl
  · rintro rfl
    exact ⟨0, 0, .nil⟩

/-- The first symbol derives the beginning of a word, the others the rest. -/
theorem derives_cons_iff :
    g.Derives (x :: xs) w ↔ ∃ u v, w = u ++ v ∧ g.Derives [x] u ∧ g.Derives xs v :=
  @derives_append_iff g [x] xs w

theorem derives_epsilon_iff : g.Derives [Symbol.epsilon] w ↔ w = [] := by
  constructor
  · rintro ⟨k, n, d⟩
    cases d with
    | epsilon d => cases d; rfl
    | terminal ha _ => exact absurd rfl (ne_epsilon_of_mem_terminals ha)
    | expand hrule _ _ => exact absurd rfl (ne_epsilon_of_mem_rulesOf hrule)
  · rintro rfl
    exact ⟨0, 0, .epsilon .nil⟩

theorem derives_terminal (hx : x ∈ g.terminals) : g.Derives [x] [x] :=
  ⟨0, 0, .terminal hx .nil⟩

/-- A terminal of a context free grammar derives nothing but itself. -/
theorem derives_terminal_iff (hcf : g.isContextFree = true) (hx : x ∈ g.terminals) :
    g.Derives [x] w ↔ w = [x] := by
  constructor
  · rintro ⟨k, n, d⟩
    cases d with
    | epsilon _ => exact absurd rfl (ne_epsilon_of_mem_terminals hx)
    | terminal _ d => cases d; rfl
    | expand hrule _ _ =>
      exact absurd hx (not_mem_terminals (mem_nonterminals_of_mem_rulesOf hcf hrule))
  · rintro rfl
    exact derives_terminal hx

theorem Derives.of_rule (hrule : rule ∈ g.rulesOf x) (d : g.Derives rule.right w) :
    g.Derives [x] w := by
  obtain ⟨k, n, d⟩ := d
  have := DerivesWith.expand hrule d .nil
  rw [List.append_nil] at this
  exact ⟨_, _, this⟩

theorem Derives.of_ofHead {right : List Symbol} (hrule : Rule.ofHead x right ∈ g.rules)
    (d : g.Derives right w) : g.Derives [x] w :=
  Derives.of_rule (ofHead_mem_rulesOf.2 hrule) d

/-- The words of a nonterminal are the words of its right sides. -/
theorem derives_nonterminal_iff (hx : x ∈ g.nonterminals) :
    g.Derives [x] w ↔ ∃ rule ∈ g.rulesOf x, g.Derives rule.right w := by
  constructor
  · rintro ⟨k, n, d⟩
    cases d with
    | epsilon _ => exact absurd rfl (ne_epsilon_of_mem_nonterminals hx)
    | terminal ha _ => exact absurd ha (not_mem_terminals hx)
    | expand hrule dr d =>
      cases d
      rw [List.append_nil]
      exact ⟨_, hrule, _, _, dr⟩
  · rintro ⟨rule, hrule, d⟩
    exact d.of_rule hrule

theorem IsProductive.rulesOf_ne_nil (h : g.IsProductive x) (hx : x ∈ g.nonterminals) :
    g.rulesOf x ≠ [] := by
  obtain ⟨w, d⟩ := h
  obtain ⟨rule, hrule, -⟩ := (derives_nonterminal_iff hx).1 d
  exact List.ne_nil_of_mem hrule

theorem Derives.isProductive (d : g.Derives xs w) (hx : x ∈ xs) : g.IsProductive x := by
  induction xs generalizing w with
  | nil => cases hx
  | cons y ys ih =>
    obtain ⟨u, v, -, du, dv⟩ := derives_cons_iff.1 d
    rcases List.mem_cons.1 hx with rfl | hx
    · exact ⟨u, du⟩
    · exact ih dv hx

/-- A sequence derives a word if each of its symbols does. -/
theorem exists_derives (hxs : ∀ x ∈ xs, g.IsProductive x) : ∃ w, g.Derives xs w := by
  induction xs with
  | nil => exact ⟨[], derives_nil_iff.2 rfl⟩
  | cons x xs ih =>
    obtain ⟨u, du⟩ := hxs x (List.mem_cons_self ..)
    obtain ⟨v, dv⟩ := ih fun y hy => hxs y (List.mem_cons_of_mem _ hy)
    exact ⟨u ++ v, derives_cons_iff.2 ⟨u, v, rfl, du, dv⟩⟩

/-- Without empty right sides, a word is at least as long as what derives it. -/
theorem length_le_of_derives (hg : g.NoEmptyRules) (d : g.Derives xs w)
    (hxs : ∀ x ∈ xs, x ≠ Symbol.epsilon) : xs.length ≤ w.length := by
  obtain ⟨k, n, d⟩ := d
  induction d with
  | nil => exact Nat.le_refl _
  | epsilon _ _ => exact absurd rfl (hxs _ (List.mem_cons_self ..))
  | terminal _ _ ih =>
    exact Nat.succ_le_succ (ih fun y hy => hxs y (List.mem_cons_of_mem _ hy))
  | expand hmem _ _ ihr ih =>
    have hrule := (mem_rulesOf.1 hmem).1
    have hright := ihr fun y hy => ne_epsilon_of_mem_right hrule (hg _ hrule) hy
    have hrest := ih fun y hy => hxs y (List.mem_cons_of_mem _ hy)
    have hpos := List.length_pos_iff.2 (right_ne_nil hrule)
    rw [List.length_cons, List.length_append]
    omega

/-! ## Replaying -/

/-- A derivation of `g` can be replayed in `h`, if each of its rules can.  Only the symbols with the
property `P`, which rules do not leave, have to be looked at. -/
theorem Derives.simulate {P : Symbol → Prop}
    (hterminal : ∀ a ∈ g.terminals, P a → a ∈ h.terminals)
    (hclosed : ∀ x rule, P x → rule ∈ g.rulesOf x → ∀ y ∈ rule.right, y ≠ Symbol.epsilon → P y)
    (hrule : ∀ x rule v, P x → rule ∈ g.rulesOf x → g.Derives rule.right v →
      h.Derives rule.right v → h.Derives [x] v)
    (d : g.Derives xs w) (hxs : ∀ x ∈ xs, x ≠ Symbol.epsilon → P x) : h.Derives xs w := by
  obtain ⟨k, n, d⟩ := d
  induction d with
  | nil => exact derives_nil_iff.2 rfl
  | epsilon _ ih =>
    have := ih fun y hy => hxs y (List.mem_cons_of_mem _ hy)
    exact derives_cons_iff.2 ⟨[], _, rfl, derives_epsilon_iff.2 rfl, this⟩
  | @terminal a xs w k n ha _ ih =>
    have hPa := hxs a (List.mem_cons_self ..) (ne_epsilon_of_mem_terminals ha)
    have := ih fun y hy => hxs y (List.mem_cons_of_mem _ hy)
    exact derives_cons_iff.2 ⟨[a], w, rfl, derives_terminal (hterminal a ha hPa), this⟩
  | @expand x rule xs v w k l n m hmem dr _ ihr ih =>
    have hPx := hxs x (List.mem_cons_self ..) (ne_epsilon_of_mem_rulesOf hmem)
    have dx := hrule x rule v hPx hmem ⟨k, n, dr⟩ (ihr (hclosed x rule hPx hmem))
    have := ih fun y hy => hxs y (List.mem_cons_of_mem _ hy)
    exact derives_cons_iff.2 ⟨v, w, rfl, dx, this⟩

/-- Replaying where all symbols matter. -/
theorem Derives.replay (hterminal : ∀ a ∈ g.terminals, a ∈ h.terminals)
    (hrule : ∀ x rule v, rule ∈ g.rulesOf x → g.Derives rule.right v → h.Derives rule.right v →
      h.Derives [x] v)
    (d : g.Derives xs w) : h.Derives xs w :=
  d.simulate (P := fun _ => True) (fun a ha _ => hterminal a ha) (fun _ _ _ _ _ _ _ => trivial)
    (fun x rule v _ => hrule x rule v) (fun _ _ _ => trivial)

theorem Derives.mono (hterminal : ∀ a ∈ g.terminals, a ∈ h.terminals)
    (hrules : ∀ rule ∈ g.rules, rule ∈ h.rules) (d : g.Derives xs w) : h.Derives xs w := by
  refine d.replay hterminal fun x rule v hmem _ dr => dr.of_rule ?_
  obtain ⟨hrule, hhead⟩ := mem_rulesOf.1 hmem
  exact mem_rulesOf.2 ⟨hrules rule hrule, hhead⟩

/-- A derivation of `g` can be followed in `h`, if for each rule that it uses `h` has one whose right
side derives the same word in `g` with no more replacements.  Only the symbols with the property `P`
have rules in `h`, so the induction is on the size: the other right side is no part of the
derivation that is followed. -/
theorem DerivesWith.follow {P : Symbol → Prop} {k n : Nat}
    (hterminal : ∀ a ∈ g.terminals, P a → a ∈ h.terminals)
    (hrule : ∀ x rule v k n, P x → rule ∈ g.rulesOf x → g.DerivesWith rule.right v k n →
      ∃ other ∈ h.rulesOf x, (∀ y ∈ other.right, y ≠ Symbol.epsilon → P y) ∧
        ∃ k' n', n' ≤ n ∧ g.DerivesWith other.right v k' n')
    (d : g.DerivesWith xs w k n) (hxs : ∀ x ∈ xs, x ≠ Symbol.epsilon → P x) : h.Derives xs w := by
  induction n using Nat.strongRecOn generalizing xs w k with
  | ind n ihn =>
    induction xs generalizing w k with
    | nil =>
      cases d
      exact derives_nil_iff.2 rfl
    | cons x xs ih =>
      rw [List.forall_mem_cons] at hxs
      obtain ⟨hx, hrest⟩ := hxs
      cases d with
      | epsilon d => exact derives_cons_iff.2 ⟨[], w, rfl, derives_epsilon_iff.2 rfl, ih d hrest⟩
      | terminal ha d =>
        have hx := hterminal x ha (hx (ne_epsilon_of_mem_terminals ha))
        exact derives_cons_iff.2 ⟨[x], _, rfl, derives_terminal hx, ih d hrest⟩
      | @expand _ rule _ v w _ _ n m hmem dr d =>
        have hx := hx (ne_epsilon_of_mem_rulesOf hmem)
        -- the other right side takes no more replacements than the one it stands for
        obtain ⟨other, hother, hright, k', n', hle, dr'⟩ := hrule x rule v _ n hx hmem dr
        have dv := ihn n' (by omega) dr' hright
        have dw := ihn m (by omega) d hrest
        exact derives_cons_iff.2 ⟨v, w, rfl, dv.of_rule hother, dw⟩

end Grammar
end NormalGrammar
