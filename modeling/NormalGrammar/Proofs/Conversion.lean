import Mathlib
import NormalGrammar.Proofs.Naming
import NormalGrammar.Proofs.NormalForm

/-!
# What a rule becomes in normal form

`Workshop.Folds` says that parts of a right side gave way to helpers, but not which parts, nor to
which helpers.  Here this is said exactly, by a relation to the helpers that are known in the end.

* `Becomes` relates a right side to what is put in its place: terminals make way for their helpers
  (`Isolates`), then all symbols but the first for one helper (`Gathers`).  Helpers that come to be
  known later change nothing about it (`Becomes.mono`).
* The rules that are not those of new helpers are the given ones, each in its place and turned in
  this way (`Valid.convertAll_turns`).
* So each of them derives what it derived before (`Grammar.normalForm_rule_for_rule`).
-/

namespace NormalGrammar

namespace Workshop

open Grammar

variable {g : Grammar} {w w' after last : Workshop} {known more : List Helper} {h : Helper}
  {pattern right xs ys : List Symbol} {rule kept : Rule} {rules out : List Rule} {x y : Symbol}

/-! ## What stands in the place of what -/

/-- `Isolates g known x y` says that `y` is put in the place of `x` where terminals make way for
their helpers. -/
inductive Isolates (g : Grammar) (known : List Helper) : Symbol → Symbol → Prop
  | terminal {a y : Symbol} : a ∈ g.terminals → ⟨y, [a]⟩ ∈ known → Isolates g known a y
  | other {x : Symbol} : x ∉ g.terminals → Isolates g known x x

/-- `Gathers known xs ys` says that `ys` is what is left of two or more symbols `xs` where, from the
last on, two of them make way for their helper. -/
inductive Gathers (known : List Helper) : List Symbol → List Symbol → Prop
  | pair (x y : Symbol) : Gathers known [x, y] [x, y]
  | cons {x y z k : Symbol} {rest pair : List Symbol} : Gathers known (y :: z :: rest) pair →
      ⟨k, pair⟩ ∈ known → Gathers known (x :: y :: z :: rest) [x, k]

/-- `Becomes g known xs ys` says that `ys` is put in the place of the right side `xs`. -/
inductive Becomes (g : Grammar) (known : List Helper) : List Symbol → List Symbol → Prop
  | terminal {a : Symbol} : a ∈ g.terminals → Becomes g known [a] [a]
  | gathered {xs isolated ys : List Symbol} : List.Forall₂ (Isolates g known) xs isolated →
      Gathers known isolated ys → Becomes g known xs ys

/-- `Turns g known rule kept` says that `rule` turns into `kept`, a rule for the same symbol. -/
def Turns (g : Grammar) (known : List Helper) (rule kept : Rule) : Prop :=
  kept.left = rule.left ∧ Becomes g known rule.right kept.right

theorem Isolates.mono (hsub : known ⊆ more) (i : Isolates g known x y) : Isolates g more x y := by
  cases i with
  | terminal ha hy => exact .terminal ha (hsub hy)
  | other hx => exact .other hx

theorem Gathers.mono (hsub : known ⊆ more) (c : Gathers known xs ys) : Gathers more xs ys := by
  induction c with
  | pair x y => exact .pair x y
  | cons _ hk ih => exact .cons ih (hsub hk)

/-- **What a right side has become does not change** when more helpers come to be known. -/
theorem Becomes.mono (hsub : known ⊆ more) (b : Becomes g known xs ys) : Becomes g more xs ys := by
  cases b with
  | terminal ha => exact .terminal ha
  | gathered hi hc => exact .gathered (hi.imp fun _ _ i => i.mono hsub) (hc.mono hsub)

theorem Folds.single (hx : ⟨x, pattern⟩ ∈ known) : Folds known pattern [x] := by
  have f : Folds known (pattern ++ []) [x] := .head hx
  rwa [List.append_nil] at f

theorem folds_of_isolates (i : List.Forall₂ (Isolates g known) xs ys) : Folds known xs ys := by
  induction i with
  | nil => exact .refl
  | @cons x y xs ys hxy _ ih =>
    cases hxy with
    | terminal _ hy => exact (Folds.head hy).trans (ih.cons y)
    | other _ => exact ih.cons x

theorem Gathers.folds (c : Gathers known xs ys) : Folds known xs ys := by
  induction c with
  | pair x y => exact .refl
  | @cons x y z k rest pair _ hk ih => exact (ih.trans (.single hk)).cons x

/-- What a right side becomes is the right side with parts replaced by helpers for them. -/
theorem Becomes.folds (b : Becomes g known xs ys) : Folds known xs ys := by
  cases b with
  | terminal _ => exact .refl
  | gathered hi hc => exact (folds_of_isolates hi).trans hc.folds

/-! ## The work on one rule -/

theorem Valid.mem_known_supply (valid : Valid g w) (hshort : Short g w.minted pattern)
    (hs : w.supply g pattern = (x, w')) : ⟨x, pattern⟩ ∈ w'.known := by
  unfold Workshop.supply at hs
  split at hs
  · rename_i y hy
    obtain ⟨rfl, rfl⟩ := Prod.mk.inj hs
    exact mem_known_of_helperFor? hy
  · rename_i hnone
    obtain ⟨-, -, -, hknown, -⟩ := valid.mint hshort hnone hs
    exact hknown

theorem Valid.isolates (valid : Valid g w) (hxs : ∀ x ∈ xs, x ∈ g.nonterminals ∨ x ∈ g.terminals)
    (hi : w.isolate g xs = (ys, w')) : List.Forall₂ (Isolates g w'.known) xs ys := by
  induction xs generalizing w ys with
  | nil =>
    obtain ⟨rfl, rfl⟩ := Prod.mk.inj hi
    exact .nil
  | cons x xs ih =>
    obtain ⟨y, w₁, hy, hvalid, hxy⟩ : ∃ y w₁,
        (if g.isTerminal x then w.supply g [x] else (x, w)) = (y, w₁) ∧
          Valid g w₁ ∧ Isolates g w₁.known x y := by
      by_cases hx : x ∈ g.terminals
      · rw [if_pos (isTerminal_iff.2 hx)]
        have hshort : Short g w.minted [x] := .inl ⟨x, hx, rfl⟩
        obtain ⟨hwork, -⟩ : Worked g w ([x] ++ []) _ _ ∧ _ := valid.supply hshort rfl
        exact ⟨_, _, rfl, hwork.valid, .terminal hx (valid.mem_known_supply hshort rfl)⟩
      · rw [if_neg (mt isTerminal_iff.1 hx)]
        exact ⟨x, w, rfl, valid, .other hx⟩
    rw [Workshop.isolate, hy] at hi
    obtain ⟨rfl, rfl⟩ := Prod.mk.inj hi
    have hrest : ∀ z ∈ xs, z ∈ g.nonterminals ∨ z ∈ g.terminals :=
      fun z hz => hxs z (List.mem_cons_of_mem _ hz)
    have hsub := (hvalid.isolate hrest rfl).1.known_subset
    exact .cons (hxy.mono hsub) (ih hvalid hrest rfl)

theorem Valid.gathers (valid : Valid g w) (hxs : ∀ x ∈ xs, Grounded g w.minted x)
    (hlength : 2 ≤ xs.length) (hf : w.fold g xs = (ys, w')) : Gathers w'.known xs ys := by
  induction xs generalizing ys w' with
  | nil => exact absurd hlength (by decide)
  | cons x xs ih =>
    match xs, hlength with
    | [y], _ =>
      obtain ⟨rfl, rfl⟩ := Prod.mk.inj hf
      exact .pair x y
    | y :: z :: rest, _ =>
      generalize hpair : w.fold g (y :: z :: rest) = folded at hf
      obtain ⟨pair, w₁⟩ := folded
      have hrest : ∀ u ∈ y :: z :: rest, Grounded g w.minted u :=
        fun u hu => hxs u (List.mem_cons_of_mem _ hu)
      have hlength' : 2 ≤ (y :: z :: rest).length := by simp
      -- what stands behind `x` is gathered first, and the pair that is left gets a helper
      have hgathers := ih hrest hlength' hpair
      obtain ⟨hwork, a, b, ha, hb, rfl⟩ := valid.fold hrest hlength' hpair
      have hshort : Short g w₁.minted [a, b] := .inr ⟨a, b, ha, hb, rfl⟩
      generalize hsupply : w₁.supply g [a, b] = supplied at hf
      obtain ⟨k, w₂⟩ := supplied
      obtain ⟨hwork', -⟩ : Worked g w₁ ([a, b] ++ []) [k] w₂ ∧ Grounded g w₂.minted k :=
        hwork.valid.supply hshort hsupply
      rw [Workshop.fold, hpair] at hf
      dsimp only at hf
      rw [hsupply] at hf
      obtain ⟨rfl, rfl⟩ := Prod.mk.inj hf
      exact .cons (hgathers.mono hwork'.known_subset) (hwork.valid.mem_known_supply hshort hsupply)

/-- **A rule is converted as `Becomes` says.** -/
theorem Valid.becomes (valid : Valid g w) (hcf : g.isContextFree = true) (hrule : rule ∈ g.rules)
    (hc : w.convert g rule = .ok (right, after)) : Becomes g after.known rule.right right := by
  obtain ⟨x, hx, hleft⟩ := isContextFree_iff.1 hcf rule hrule
  obtain ⟨hnormal, rfl, rfl⟩ | ⟨-, hlength, isolated, w₁, w₂, hi, hf, rfl⟩ :=
    valid.convert_eq_ok hrule hleft hx hc
  · obtain ⟨u, -, ⟨a, ha, rfl⟩ | ⟨y, hy, z, hz, rfl⟩⟩ := isNormal_iff.1 hnormal
    · exact .terminal ha
    · have hyz : List.Forall₂ (Isolates g after.known) [y, z] [y, z] :=
        .cons (.other (not_mem_terminals hy)) (.cons (.other (not_mem_terminals hz)) .nil)
      exact .gathered hyz (.pair y z)
  · have hdeclared := declared_of_two_le hrule hlength
    have hlen := length_isolate g w rule.right
    rw [hi] at hlen
    obtain ⟨hwork, hgrounded⟩ := valid.isolate hdeclared hi
    obtain ⟨hwork', -⟩ := hwork.valid.fold hgrounded (hlen ▸ hlength) hf
    have hisolates := valid.isolates hdeclared hi
    have hgathers := hwork.valid.gathers hgrounded (hlen ▸ hlength) hf
    have b : Becomes g w₂.known rule.right right :=
      .gathered (hisolates.imp fun _ _ i => i.mono hwork'.known_subset) hgathers
    split
    · exact b.mono known_subset_learn
    · exact b

/-! ## All rules -/

theorem Valid.rewritesNonterminal_made (valid : Valid g w) (n : Nat) :
    ∀ r ∈ (w.minted.drop n).map Helper.rule, g.rewritesNonterminal r = false := by
  intro r hr
  obtain ⟨h, hh, rfl⟩ := List.mem_map.1 hr
  rw [← Bool.not_eq_true, rewritesNonterminal_iff]
  rintro ⟨x, hx, hleft⟩
  obtain rfl : h.symbol = x := List.singleton_inj.1 hleft
  exact (valid.minted_fresh h (List.mem_of_mem_drop hh)).1 hx

/-- **Rule for rule**: among the rules in the end, those for declared symbols are the given ones,
turned and in their order, and the others are the rules of the helpers that were made, in the order
in which they were made. -/
theorem Valid.convertAll_turns (valid : Valid g w) (hcf : g.isContextFree = true)
    (hrules : ∀ rule ∈ rules, rule ∈ g.rules)
    (hc : (w.convertAll g rules).result = .ok (out, last)) :
    List.Forall₂ (Turns g last.known) rules (out.filter g.rewritesNonterminal) ∧
      (out.filter fun r => !g.rewritesNonterminal r) =
        (last.minted.drop w.minted.length).map Helper.rule := by
  have hkept : ∀ rule ∈ rules, ∀ right, g.rewritesNonterminal ⟨rule.left, right⟩ = true :=
    fun rule hrule _ => rewritesNonterminal_iff.2 (isContextFree_iff.1 hcf rule (hrules rule hrule))
  constructor
  · induction rules generalizing w out with
    | nil =>
      obtain ⟨rfl, rfl⟩ := Prod.mk.inj (Except.ok.inj hc)
      exact .nil
    | cons rule rest ih =>
      obtain ⟨right, after, others, hone, hrest, rfl⟩ := convertAll_cons_eq_ok hc
      obtain ⟨hrule, hrules⟩ := List.forall_mem_cons.1 hrules
      obtain ⟨hfirst, hkept⟩ := List.forall_mem_cons.1 hkept
      have hstep : Converted g w rule right after := valid.convert hcf hrule hone
      have hmade := hstep.valid.rewritesNonterminal_made w.minted.length
      have hsubset := (hstep.valid.convertAll hcf hrules hrest).subset.1
      have hturn : Turns g last.known rule ⟨rule.left, right⟩ :=
        ⟨rfl, (valid.becomes hcf hrule hone).mono hsubset⟩
      rw [List.cons_append, List.filter_cons_of_pos (hfirst right), List.filter_append,
        List.filter_eq_nil_iff.2 (by simpa using hmade), List.nil_append]
      exact .cons hturn (ih hstep.valid hrules hrest hkept)
  · have hmade := (valid.convertAll hcf hrules hc).valid.rewritesNonterminal_made w.minted.length
    rw [filter_convertAll (by simpa using hkept) hc, List.filter_eq_self.2 (by simpa using hmade)]

end Workshop

open Workshop

theorem IsNormalFormOf.derives_folds_iff {w : Workshop} {g h : Grammar} {xs ys v : List Symbol}
    (n : IsNormalFormOf w g h) (f : Folds w.known xs ys) : h.Derives ys v ↔ h.Derives xs v := by
  constructor
  · rintro ⟨height, size, d⟩
    obtain ⟨height', size', -, d'⟩ := n.derivesWith_of_folds f d
    exact ⟨height', size', d'⟩
  · exact n.derives_of_folds f

namespace Grammar

variable {g h : Grammar} {rule : Rule}

/-- A right side derives the same words in normal form as before. -/
theorem derives_right_iff {w : Workshop} {v : List Symbol} (n : IsNormalFormOf w g h)
    (hrule : rule ∈ g.rules) : h.Derives rule.right v ↔ g.Derives rule.right v :=
  n.derives_iff fun _ hy hε => declared_of_mem_right hrule hy hε

/-- **The normal form is right, rule for rule**: its rules are all in normal form, the start symbol
and the terminals are those that were given, the nonterminals that were given are there and derive
the words that they derived, and the rules for them are as many as before, in the same order, each
with the same symbol and the same words. -/
theorem normalForm_rule_for_rule (hcf : g.isContextFree = true)
    (hh : g.normalForm.result = .ok h) :
    h.AllNormal ∧ h.start = g.start ∧ h.terminals = g.terminals ∧
      (∀ x ∈ g.nonterminals, x ∈ h.nonterminals ∧ ∀ w, h.Derives [x] w ↔ g.Derives [x] w) ∧
      List.Forall₂ (fun rule kept => kept.left = rule.left ∧
          ∀ w, h.Derives kept.right w ↔ g.Derives rule.right w)
        g.rules (h.rules.filter g.rewritesNonterminal) := by
  obtain ⟨w, hc, n⟩ := normalForm_converts hcf hh
  obtain ⟨hturns, -⟩ := (valid_ofGrammar hcf).convertAll_turns hcf (fun _ hr => hr) hc
  refine ⟨n.allNormal hcf, n.start_eq, n.terminals_eq, fun x hx => ⟨?_, fun v => ?_⟩, ?_⟩
  · exact (n.mem_nonterminals x).2 (.inl hx)
  · refine n.derives_iff ?_
    simp [hx]
  · refine List.forall₂_iff_zip.2 ⟨hturns.length_eq, fun {rule kept} hmem => ?_⟩
    obtain ⟨hleft, b⟩ := List.forall₂_iff_zip.1 hturns |>.2 hmem
    have hrule : rule ∈ g.rules := (List.of_mem_zip hmem).1
    exact ⟨hleft, fun v => (n.derives_folds_iff b.folds).trans (derives_right_iff n hrule)⟩

/-- A grammar that brings along helpers for `t` and for `T T`. -/
def owned : Grammar where
  start := ⟨"S"⟩
  nonterminals := [⟨"S"⟩, ⟨"T"⟩, ⟨"P"⟩]
  terminals := [⟨"t"⟩, ⟨"u"⟩]
  rules := [.ofHead ⟨"S"⟩ [⟨"t"⟩, ⟨"P"⟩, ⟨"P"⟩], .ofHead ⟨"S"⟩ [⟨"u"⟩], .ofHead ⟨"T"⟩ [⟨"t"⟩],
    .ofHead ⟨"P"⟩ [⟨"T"⟩, ⟨"T"⟩]]
  nodup_nonterminals := by decide
  nodup_terminals := by decide
  wellFormed := defect?_eq_none_iff.1 (by decide)

/-- What `owned` becomes: `T` stands for `t`, and a helper was made for `P P`. -/
def ownedNormal : Grammar where
  start := ⟨"S"⟩
  nonterminals := [⟨"S"⟩, ⟨"T"⟩, ⟨"P"⟩, ⟨"0"⟩]
  terminals := [⟨"t"⟩, ⟨"u"⟩]
  rules := [.ofHead ⟨"S"⟩ [⟨"T"⟩, ⟨"0"⟩], .ofHead ⟨"0"⟩ [⟨"P"⟩, ⟨"P"⟩], .ofHead ⟨"S"⟩ [⟨"u"⟩],
    .ofHead ⟨"T"⟩ [⟨"t"⟩], .ofHead ⟨"P"⟩ [⟨"T"⟩, ⟨"T"⟩]]
  nodup_nonterminals := by decide
  nodup_terminals := by decide
  wellFormed := defect?_eq_none_iff.1 (by decide)

/-- Its first rule derives what it derived before. -/
theorem owned_rule_for_rule : owned.isContextFree = true ∧
    owned.normalForm.result = .ok ownedNormal ∧
    ∀ w, ownedNormal.Derives [⟨"T"⟩, ⟨"0"⟩] w ↔ owned.Derives [⟨"t"⟩, ⟨"P"⟩, ⟨"P"⟩] w := by
  have hcf : owned.isContextFree = true := by decide
  have hh : owned.normalForm.result = .ok ownedNormal := by decide_cbv
  obtain ⟨-, -, -, -, hrules⟩ := normalForm_rule_for_rule hcf hh
  have hfirst : (Rule.ofHead ⟨"S"⟩ [⟨"t"⟩, ⟨"P"⟩, ⟨"P"⟩], Rule.ofHead ⟨"S"⟩ [⟨"T"⟩, ⟨"0"⟩]) ∈
      owned.rules.zip (ownedNormal.rules.filter owned.rewritesNonterminal) := by decide
  obtain ⟨-, hwords⟩ := (List.forall₂_iff_zip.1 hrules).2 hfirst
  exact ⟨hcf, hh, hwords⟩

end Grammar

end NormalGrammar
