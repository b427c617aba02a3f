import NormalGrammar.Proofs.SampleDepth

/-!
# Which words can be sampled

For every derivation that is no higher than the depth there are words to draw under which it is what is
sampled (`exists_script_of_derivesWith`): one for each expansion, in the order in which the expansions
are made.

* Whatever is to be chosen, some word chooses it: the least one that is large enough leaves a low half
  smaller than the number of candidates, and that is never refused (`WordSource.exists_word`).
* `Sampler.Reads` says that a sampler reads a script to its end and what it returns then; scripts of
  samplers in a row are joined (`Sampler.Reads.bind`).
* No expansion of such a derivation is made at depth zero, where not all rules may be chosen
  (`exists_reads`).
-/

namespace NormalGrammar

open Grammar

/-! ## Words for choices -/

namespace WordSource

variable {i k : Nat} {word : UInt32}

/-- A low half that is smaller than the number of candidates lies in the zone. -/
theorem le_zone (k : Nat) : k - 1 ≤ zone k := by
  have hpow : 1 ≤ 2 ^ (31 - k.log2) := Nat.one_le_two_pow
  have hle : k * 1 ≤ k * 2 ^ (31 - k.log2) := Nat.mul_le_mul_left k hpow
  rw [zone, Nat.shiftLeft_eq]
  omega

/-- A word whose multiple exceeds that of a choice by less than the number of candidates decides for
it. -/
theorem accepts_and_choice (hle : i * UInt32.size ≤ word.toNat * k)
    (hlt : word.toNat * k < i * UInt32.size + k) (hk : k ≤ UInt32.size) :
    accepts k word = true ∧ choice k word = i := by
  have hdiv : word.toNat * k / UInt32.size = i := by
    apply Nat.div_eq_of_lt_le hle
    rw [Nat.succ_mul]
    omega
  have hmod := Nat.div_add_mod (word.toNat * k) UInt32.size
  rw [hdiv, Nat.mul_comm UInt32.size i] at hmod
  have hzone := le_zone k
  refine ⟨?_, hdiv⟩
  simp only [accepts, decide_eq_true_eq]
  omega

/-- **Every choice is made by some word.** -/
theorem exists_word (hi : i < k) (hk : k ≤ UInt32.size) :
    ∃ word, accepts k word = true ∧ choice k word = i := by
  -- the quotient, rounded up
  let v := (i * UInt32.size + (k - 1)) / k
  have hupper : v * k ≤ i * UInt32.size + (k - 1) := Nat.div_mul_le_self _ k
  have hlower : i * UInt32.size + (k - 1) < k * (v + 1) := Nat.lt_mul_div_succ _ (by omega)
  rw [Nat.mul_add, Nat.mul_comm k v] at hlower
  have hv : v < UInt32.size := by
    have hchoices : (i + 1) * UInt32.size ≤ k * UInt32.size := Nat.mul_le_mul_right _ hi
    rw [Nat.succ_mul] at hchoices
    have hprod : v * k < UInt32.size * k := by
      rw [Nat.mul_comm UInt32.size k]
      omega
    exact Nat.lt_of_mul_lt_mul_right hprod
  have hword : (UInt32.ofNat v).toNat = v := UInt32.toNat_ofNat_of_lt' hv
  exact ⟨.ofNat v, accepts_and_choice (by rw [hword]; omega) (by rw [hword]; omega) hk⟩

theorem choose_cons (haccepts : accepts k word = true) (rest : List UInt32) (drawn : Nat) :
    choose k ⟨word :: rest, drawn⟩ = (choice k word, ⟨rest, drawn + 1⟩) := by
  simp [choose, chooseFrom, haccepts]

end WordSource

/-! ## Reading scripts -/

namespace Sampler

variable {α β : Type} {m : Sampler α} {f : α → Sampler β} {a : α} {b : β} {s t : List UInt32}
  {expand : Symbol → Sampler (List Symbol)} {x : Symbol} {xs u v : List Symbol} {rule first : Rule}
  {others : List Rule}

/-- A sampler reads a script to its end, whatever comes after it, and then returns a value. -/
def Reads (m : Sampler α) (script : List UInt32) (a : α) : Prop :=
  ∀ rest drawn, outcome m ⟨script ++ rest, drawn⟩ = (.ok a, ⟨rest, drawn + script.length⟩)

theorem Reads.pure (a : α) : Reads (Pure.pure a) [] a := fun _ _ => rfl

/-- Two samplers in a row read one script after the other. -/
theorem Reads.bind (hm : Reads m s a) (hf : Reads (f a) t b) : Reads (m >>= f) (s ++ t) b := by
  intro rest drawn
  rw [outcome_bind, List.append_assoc, hm]
  show outcome (f a) ⟨t ++ rest, drawn + s.length⟩ = _
  rw [hf, List.length_append, Nat.add_assoc]

theorem Reads.expandEach_cons (hx : Reads (expand x) s u) (hxs : Reads (expandEach expand xs) t v) :
    Reads (expandEach expand (x :: xs)) (s ++ t) (u ++ v) := by
  have hrest : Reads (expandEach expand xs >>= fun back => Pure.pure (u ++ back)) (t ++ []) (u ++ v) :=
    hxs.bind (.pure _)
  rw [List.append_nil] at hrest
  exact hx.bind hrest

theorem expandEach_singleton (expand : Symbol → Sampler (List Symbol)) (x : Symbol) :
    expandEach expand [x] = expand x := by
  simp [expandEach]

theorem outcome_pick (first : Rule) (others : List Rule) (source : WordSource) :
    outcome (pick first others) source =
      (.ok ((first :: others)[(WordSource.choose (first :: others).length source).1]?.getD first),
        (WordSource.choose (first :: others).length source).2) :=
  rfl

/-- Each of some rules is picked by a word. -/
theorem exists_reads_pick (hrule : rule ∈ first :: others)
    (hcount : (first :: others).length ≤ UInt32.size) : ∃ word, Reads (pick first others) [word] rule := by
  obtain ⟨i, hi, hget⟩ := List.getElem_of_mem hrule
  obtain ⟨word, haccepts, hchoice⟩ := WordSource.exists_word hi hcount
  refine ⟨word, fun rest drawn => ?_⟩
  rw [outcome_pick, List.singleton_append, WordSource.choose_cons haccepts, hchoice,
    List.getElem?_eq_getElem hi, hget]
  rfl

end Sampler

open Sampler

namespace Grammar

variable {g : Grammar} {expand : Symbol → Sampler (List Symbol)} {x : Symbol} {xs w : List Symbol}
  {rule : Rule} {script : List UInt32} {depth h n : Nat}

/-! ## A script for each derivation -/

theorem reads_epsilon (hcf : g.isContextFree = true) (depth : Nat) :
    Reads (g.expand g.heights depth .epsilon) [] [] := by
  rw [expand_eq hcf, expandSymbol_epsilon]
  exact .pure []

theorem reads_terminal (hcf : g.isContextFree = true) (hx : x ∈ g.terminals) (depth : Nat) :
    Reads (g.expand g.heights depth x) [] [x] := by
  rw [expand_eq hcf, expandSymbol_terminal hx]
  exact .pure [x]

/-- A nonterminal is expanded by any of its rules, with one word more than for the right side. -/
theorem exists_reads_expandSymbol (hx : x ∈ g.nonterminals) (hrule : rule ∈ g.rulesOf x)
    (hcount : (g.rulesOf x).length ≤ UInt32.size)
    (hright : Reads (expandEach expand rule.right) script w) :
    ∃ word, Reads (g.expandSymbol g.rulesOf expand x) (word :: script) w := by
  cases hrules : g.rulesOf x with
  | nil => simp [hrules] at hrule
  | cons first others =>
    have hne : g.rulesOf x ≠ [] := by simp [hrules]
    rw [hrules] at hrule hcount
    obtain ⟨word, hword⟩ := exists_reads_pick hrule hcount
    refine ⟨word, ?_⟩
    rw [expandSymbol_pick (ne_epsilon_of_mem_nonterminals hx) (not_mem_terminals hx) hne hrules]
    exact hword.bind hright

/-- **A derivation that is no higher than the depth is sampled** under some script, with one word for
each of its expansions. -/
theorem exists_reads (hcf : g.isContextFree = true) (hrules : g.rules.length ≤ UInt32.size)
    (d : g.DerivesWith xs w h n) (hle : h ≤ depth) :
    ∃ script : List UInt32, script.length = n ∧
      Reads (expandEach (g.expand g.heights depth) xs) script w := by
  induction d generalizing depth with
  | nil => exact ⟨[], rfl, .pure []⟩
  | epsilon _ ih =>
    obtain ⟨script, hlength, hreads⟩ := ih hle
    exact ⟨script, hlength, (reads_epsilon hcf depth).expandEach_cons hreads⟩
  | terminal ha _ ih =>
    obtain ⟨script, hlength, hreads⟩ := ih hle
    exact ⟨script, hlength, (reads_terminal hcf ha depth).expandEach_cons hreads⟩
  | @expand x rule xs v w h k n m hrule _ _ ihr ih =>
    rw [Nat.max_le] at hle
    -- the symbol is expanded above depth zero
    obtain ⟨depth, rfl⟩ := Nat.exists_eq_succ_of_ne_zero (show depth ≠ 0 by omega)
    obtain ⟨s, hs, hright⟩ := ihr (Nat.le_of_succ_le_succ hle.1)
    obtain ⟨t, ht, hrest⟩ := ih hle.2
    have hcount : (g.rulesOf x).length ≤ UInt32.size :=
      Nat.le_trans (List.length_filter_le ..) hrules
    obtain ⟨word, hx⟩ := exists_reads_expandSymbol (mem_nonterminals_of_mem_rulesOf hcf hrule) hrule
      hcount hright
    exact ⟨word :: s ++ t, by simp [hs, ht]; omega, hx.expandEach_cons hrest⟩

/-- **Every word with a derivation no higher than the depth can be sampled**: for each such derivation
there is a script with one word for each of its expansions, under which its word is returned and the
script is used up. -/
theorem exists_script_of_derivesWith (hcf : g.isContextFree = true) (hrules : g.rules.length < 2 ^ 32)
    (d : g.DerivesWith [g.start] w h n) (hle : h ≤ depth) :
    ∃ script : List UInt32, script.length = n ∧
      g.sampleFrom depth (.ofScript script) = (.ok (String.join (w.map Symbol.name)), ⟨[], n⟩) := by
  obtain ⟨script, hlength, hreads⟩ := exists_reads hcf (Nat.le_of_lt hrules) d hle
  rw [expandEach_singleton] at hreads
  have hsample : Reads (g.sample depth) (script ++ []) (String.join (w.map Symbol.name)) :=
    hreads.bind (.pure _)
  have hrun := hsample [] 0
  rw [List.append_nil, List.append_nil, Nat.zero_add, hlength] at hrun
  exact ⟨script, hlength, hrun⟩

/-- The longer way of `detour` is sampled at depth four. -/
theorem detour_exists_script : detour.isContextFree = true ∧ detour.rules.length < 2 ^ 32 ∧
    detour.DerivesWith [detour.start] [⟨"q"⟩, ⟨"r"⟩] 4 6 ∧ 4 ≤ 4 ∧
    ∃ script : List UInt32, script.length = 6 ∧
      detour.sampleFrom 4 (.ofScript script) = (.ok "qr", ⟨[], 6⟩) := by
  have hcf : detour.isContextFree = true := by decide
  have hrules : detour.rules.length < 2 ^ 32 := by decide
  have hA : detour.DerivesWith [⟨"A"⟩] [] 1 1 :=
    .expand (show .ofHead ⟨"A"⟩ [.epsilon] ∈ detour.rulesOf _ by decide) (.epsilon .nil) .nil
  have hQ : detour.DerivesWith [⟨"Q"⟩] [⟨"q"⟩] 2 2 :=
    .expand (show .ofHead ⟨"Q"⟩ [⟨"A"⟩, ⟨"q"⟩] ∈ detour.rulesOf _ by decide)
      (hA.append (.terminal (by decide) .nil)) .nil
  have hR : detour.DerivesWith [⟨"R"⟩] [⟨"r"⟩] 1 1 :=
    .expand (show .ofHead ⟨"R"⟩ [⟨"r"⟩] ∈ detour.rulesOf _ by decide) (.terminal (by decide) .nil) .nil
  have hPQ : detour.DerivesWith [⟨"P"⟩] [⟨"q"⟩] 3 3 :=
    .expand (show .ofHead ⟨"P"⟩ [⟨"Q"⟩] ∈ detour.rulesOf _ by decide) hQ .nil
  have hPR : detour.DerivesWith [⟨"P"⟩] [⟨"r"⟩] 2 2 :=
    .expand (show .ofHead ⟨"P"⟩ [⟨"R"⟩] ∈ detour.rulesOf _ by decide) hR .nil
  have d : detour.DerivesWith [detour.start] [⟨"q"⟩, ⟨"r"⟩] 4 6 :=
    .expand (show .ofHead ⟨"S"⟩ [⟨"P"⟩, ⟨"P"⟩] ∈ detour.rulesOf _ by decide) (hPQ.append hPR) .nil
  exact ⟨hcf, hrules, d, Nat.le_refl 4, exists_script_of_derivesWith hcf hrules d (Nat.le_refl 4)⟩

end Grammar
end NormalGrammar
