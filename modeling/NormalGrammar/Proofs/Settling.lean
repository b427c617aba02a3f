import Mathlib
import NormalGrammar.Proofs.Failures
import NormalGrammar.Proofs.RenamingFree

/-!
# When inlining renamings settles

Each inlining removes one renaming and may add others, also some that were removed before, so it is
not clear that no renaming is left in the end.  In fact there may be one forever.

* Renamings are inlined as if there were no other rules (`filter_inline`), first in, first out: they
  are a queue that changes by `next`, and inlining settles when the queue is empty (`run_spec`).
* There are only so many queues, so inlining goes on forever just when a queue comes back
  (`renamingFree_settles_iff`).  That does happen (`dense_never_settles`).
* It does not happen where no symbol can be renamed back to itself (`settles_of_acyclic`).
-/

namespace NormalGrammar

open Sequence

namespace Sequence

variable {α : Type} [DecidableEq α]

theorem distinct_filter (p : α → Bool) (xs : List α) :
    distinct (xs.filter p) = (distinct xs).filter p := by
  induction xs with
  | nil => rfl
  | cons x xs ih =>
    by_cases hx : p x = true
    · rw [List.filter_cons_of_pos hx, distinct, distinct, ih, List.filter_cons_of_pos hx,
        List.filter_filter, List.filter_filter]
      simp only [Bool.and_comm]
    · rw [List.filter_cons_of_neg hx, distinct, ih, List.filter_cons_of_neg hx,
        List.filter_filter]
      refine List.filter_congr fun y _ => ?_
      by_cases hy : y = x
      · simp [hy, hx]
      · simp [hy]

end Sequence

namespace RenamingFree

open Grammar

variable {g : Grammar} {rules q : List Rule} {unit rule : Rule} {head x y : Symbol}
  {limit passes : Nat}

/-! ## The queue of renamings -/

/-- The queue after its first renaming has been inlined. -/
def next : List Rule → List Rule
  | [] => []
  | unit :: rest =>
    match unit.head? with
    | some head => inline (unit :: rest) unit head
    | none => unit :: rest

/-- What the head of the first renaming inherits goes to the end of the queue. -/
theorem next_cons {rest : List Rule} {target : List Symbol} :
    next (.ofHead x target :: rest) =
      rest ++ (inherited rest [x] x target).map (Rule.ofHead x) := by
  rw [next, Rule.head?_ofHead]
  dsimp only
  rw [inline, List.erase_cons_head]
  rfl

/-- The renamings among the rules of a grammar, in order. -/
def queue (g : Grammar) : List Rule := (distinct g.rules).filter g.isRenaming

theorem rights_filter (left : List Symbol) :
    ((rules.filter g.isRenaming).filter fun rule => decide (rule.left = left)).map Rule.right =
      ((rules.filter fun rule => decide (rule.left = left)).map Rule.right).filter
        fun right => g.isRenaming ⟨[], right⟩ := by
  rw [List.filter_map, List.filter_filter, List.filter_filter]
  refine congrArg _ (List.filter_congr ?_)
  intro rule _
  rw [Bool.and_comm]
  rfl

theorem filter_inherited (left target : List Symbol) :
    (inherited rules left head target).filter (fun right => g.isRenaming ⟨[], right⟩) =
      inherited (rules.filter g.isRenaming) left head target := by
  rw [inherited, inherited, ← distinct_filter, rights_filter, rights_filter, List.filter_filter,
    List.filter_filter]
  refine congrArg _ (List.filter_congr ?_)
  intro right _
  rw [Bool.eq_iff_iff]
  simp only [Bool.and_eq_true, Bool.not_eq_true', ← Bool.not_eq_true, hasSequence_iff,
    List.mem_filter]
  constructor
  · rintro ⟨hr, hne, hown⟩
    exact ⟨⟨hne, fun h => hown h.1⟩, hr⟩
  · rintro ⟨⟨hne, hown⟩, hr⟩
    exact ⟨hr, hne, fun h => hown ⟨h, hr⟩⟩

/-- **Other rules do not matter** for the renamings that inlining leaves. -/
theorem filter_inline : (inline rules unit head).filter g.isRenaming =
    inline (rules.filter g.isRenaming) unit head := by
  rw [inline, inline, List.filter_append, List.erase_filter, List.filter_map, ← filter_inherited]
  rfl

/-! ## Running and the queue -/

theorem next_iterate_nil (n : Nat) : next^[n] [] = [] := Function.iterate_fixed rfl n

theorem next_iterate_eq_nil_of_le {m n : Nat} (h : m ≤ n) (hm : next^[m] q = []) :
    next^[n] q = [] := by
  obtain ⟨k, rfl⟩ := Nat.exists_eq_add_of_le' h
  rw [Function.iterate_add_apply, hm, next_iterate_nil]

/-- Inlining the first of the rules that is a renaming changes the queue as `next` says. -/
theorem next_filter (hfind : rules.find? g.isRenaming = some unit) (hhead : unit.head? = some head) :
    next (rules.filter g.isRenaming) = (inline rules unit head).filter g.isRenaming := by
  rw [← List.head?_filter, List.head?_eq_some_iff] at hfind
  obtain ⟨rest, hrest⟩ := hfind
  rw [filter_inline, hrest, next, hhead]

/-- **Inlining settles when the queue is empty.** -/
theorem run_spec (hheaded : AllHeaded g rules) :
    (next^[passes] (rules.filter g.isRenaming) = [] ∧
        ∃ result, (run g limit passes rules).result = .ok result) ∨
      next^[passes] (rules.filter g.isRenaming) ≠ [] ∧
        (run g limit passes rules).result = .error (.unsettled .renamings limit) := by
  induction passes generalizing rules with
  | zero =>
    cases hfind : rules.find? g.isRenaming with
    | none =>
      refine .inl ⟨?_, rules, run_of_none hfind⟩
      rw [Function.iterate_zero_apply, ← List.head?_eq_none_iff, List.head?_filter, hfind]
    | some unit =>
      refine .inr ⟨?_, run_zero hfind⟩
      rw [Function.iterate_zero_apply, ne_eq, ← List.head?_eq_none_iff, List.head?_filter, hfind]
      simp
  | succ passes ih =>
    rw [Function.iterate_succ_apply]
    cases hfind : rules.find? g.isRenaming with
    | none =>
      refine .inl ⟨?_, rules, run_of_none hfind⟩
      rw [← List.head?_filter, List.head?_eq_none_iff] at hfind
      rw [hfind]
      exact next_iterate_nil passes
    | some unit =>
      obtain ⟨x, hx, y, -, rfl, -⟩ := hheaded.of_find hfind
      rw [next_filter hfind rfl, run_succ hfind rfl]
      exact ih (hheaded.inline hx)

/-- The stage is not done within a limit just when the queue is not empty by then. -/
theorem unsettled_iff (hcf : g.isContextFree = true) :
    (∃ stage n, (g.renamingFree limit).result = .error (.unsettled stage n)) ↔
      next^[limit] (queue g) ≠ [] := by
  rcases run_spec (allHeaded_distinct hcf) with ⟨hnil, rules, hok⟩ | ⟨hne, herror⟩
  · refine iff_of_false ?_ (not_not_intro hnil)
    rintro ⟨stage, n, h⟩
    rcases Traced.result_bind_eq_error_iff.1 h with h | ⟨rules', -, h⟩
    · cases hok.symm.trans h
    · obtain ⟨d, -, he⟩ := Stage.build_eq_error_iff.1 h
      cases he
  · exact iff_of_true ⟨_, _, Traced.result_bind_eq_error_iff.2 (.inl herror)⟩ hne

/-! ## Queues that come back -/

/-- A queue holds renamings of nonterminals, none twice. -/
structure IsQueue (g : Grammar) (q : List Rule) : Prop where
  nodup : q.Nodup
  renamings : ∀ rule ∈ q, ∃ x ∈ g.nonterminals, ∃ y ∈ g.nonterminals, rule = .ofHead x [y]

theorem isQueue_queue (hcf : g.isContextFree = true) : IsQueue g (queue g) where
  nodup := (nodup_distinct g.rules).filter _
  renamings := by
    intro rule hrule
    obtain ⟨hrule, hren⟩ := List.mem_filter.1 hrule
    obtain ⟨x, hx, hleft⟩ := allHeaded_distinct hcf rule hrule
    obtain ⟨y, hy, hright⟩ := isRenaming_iff.1 hren
    exact ⟨x, hx, y, hy, by rw [Rule.ofHead, ← hleft, ← hright]⟩

/-- A queue stays one. -/
theorem IsQueue.next (hq : IsQueue g q) : IsQueue g (next q) := by
  cases q with
  | nil => exact hq
  | cons unit rest =>
    obtain ⟨hmem, hrest⟩ := List.forall_mem_cons.1 hq.renamings
    obtain ⟨x, hx, y, hy, rfl⟩ := hmem
    constructor
    · exact nodup_inline hq.nodup rfl
    · intro rule hrule
      rw [next_cons] at hrule
      rcases List.mem_append.1 hrule with hrule | hrule
      · exact hrest rule hrule
      · obtain ⟨right, hright, rfl⟩ := List.mem_map.1 hrule
        obtain ⟨u, -, z, hz, he⟩ := hrest _ (mem_inherited_iff.1 hright).1
        exact ⟨x, hx, z, hz, by rw [(Rule.ofHead_inj.1 he).2]⟩

theorem IsQueue.iterate (hq : IsQueue g q) (n : Nat) : IsQueue g (RenamingFree.next^[n] q) := by
  induction n with
  | zero => exact hq
  | succ n ih =>
    rw [Function.iterate_succ_apply']
    exact ih.next

/-- All queues there can be. -/
def queues (g : Grammar) : List (List Rule) :=
  let renamings := distinct (g.nonterminals.flatMap fun x => g.nonterminals.map fun y => .ofHead x [y])
  renamings.sublists.flatMap List.permutations

/-- Every queue is one of them: it is some of the renamings, in some order. -/
theorem IsQueue.mem_queues (hq : IsQueue g q) : q ∈ queues g := by
  generalize hall : distinct (g.nonterminals.flatMap fun x =>
    g.nonterminals.map fun y => Rule.ofHead x [y]) = renamings
  have hmem : ∀ rule ∈ q, rule ∈ renamings := by
    intro rule hrule
    obtain ⟨x, hx, y, hy, rfl⟩ := hq.renamings rule hrule
    rw [← hall, mem_distinct]
    exact List.mem_flatMap.2 ⟨x, hx, List.mem_map.2 ⟨y, hy, rfl⟩⟩
  have hnodup : renamings.Nodup := hall ▸ nodup_distinct _
  rw [queues, hall]
  refine List.mem_flatMap.2 ⟨renamings.filter (· ∈ q), ?_, ?_⟩
  · exact List.mem_sublists.2 List.filter_sublist
  · refine List.mem_permutations.2 ?_
    refine (List.perm_ext_iff_of_nodup hq.nodup (hnodup.filter _)).2 fun rule => ?_
    simp only [List.mem_filter, decide_eq_true_eq]
    exact ⟨fun h => ⟨hmem rule h, h⟩, And.right⟩

/-- If no queue comes back, the queue becomes empty, after as many inlinings at most as there are
queues. -/
theorem IsQueue.exists_empty (hq : IsQueue g q)
    (hnew : ∀ i j, i < j → RenamingFree.next^[i] q = RenamingFree.next^[j] q →
      RenamingFree.next^[i] q = []) :
    ∃ n ≤ (queues g).length, RenamingFree.next^[n] q = [] := by
  by_contra hempty
  have hno : ∀ n ≤ (queues g).length, RenamingFree.next^[n] q ≠ [] :=
    fun n hn h => hempty ⟨n, hn, h⟩
  have hsub : (List.range ((queues g).length + 1)).map (RenamingFree.next^[·] q) ⊆ queues g := by
    intro p hp
    obtain ⟨n, -, rfl⟩ := List.mem_map.1 hp
    exact (hq.iterate n).mem_queues
  have hnodup : ((List.range ((queues g).length + 1)).map (RenamingFree.next^[·] q)).Nodup := by
    refine List.pairwise_map.2 (List.pairwise_lt_range.imp_of_mem fun {i j} hi _ hij heq => ?_)
    exact hno i (Nat.le_of_lt_succ (List.mem_range.1 hi)) (hnew i j hij heq)
  have hlength := hnodup.length_le_of_subset hsub
  rw [List.length_map, List.length_range] at hlength
  exact absurd hlength (Nat.not_succ_le_self _)

theorem ne_nil_of_recurs {i j : Nat} (hij : i < j) (hback : next^[i] q = next^[j] q)
    (hne : next^[i] q ≠ []) (n : Nat) : next^[n] q ≠ [] := by
  intro hn
  obtain ⟨d, rfl⟩ := Nat.exists_eq_add_of_le' hij
  rw [Nat.add_succ, ← Nat.succ_add, Function.iterate_add_apply] at hback
  -- `d + 1` more inlinings change nothing, however often they are done
  have hperiod : next^[(d + 1) * n + i] q = next^[i] q := by
    rw [Function.iterate_add_apply, Function.iterate_mul]
    exact Function.iterate_fixed hback.symm n
  refine hne (hperiod ▸ next_iterate_eq_nil_of_le ?_ hn)
  calc n
    _ ≤ (d + 1) * n := Nat.le_mul_of_pos_left n (Nat.succ_pos d)
    _ ≤ (d + 1) * n + i := Nat.le_add_right _ _

/-- Once the queue is empty, every larger limit is large enough. -/
theorem settles_of_empty (hcf : g.isContextFree = true) {n : Nat} (hn : next^[n] (queue g) = []) :
    ∀ limit ≥ n, ∀ stage k, (g.renamingFree limit).result ≠ .error (.unsettled stage k) :=
  fun _ hle stage k h =>
    (unsettled_iff hcf).1 ⟨stage, k, h⟩ (next_iterate_eq_nil_of_le hle hn)

/-- **Inlining settles just when no queue comes back**: some limit, and every larger one, is enough for
the renamings of a grammar if and only if the queue is never what it was before, unless it is
empty. -/
theorem renamingFree_settles_iff (hcf : g.isContextFree = true) :
    (∃ n, ∀ limit ≥ n, ∀ stage k,
        (g.renamingFree limit).result ≠ .error (.unsettled stage k)) ↔
      ∀ i j, i < j → next^[i] (queue g) = next^[j] (queue g) → next^[i] (queue g) = [] := by
  constructor
  · rintro ⟨n, hn⟩ i j hij hback
    by_contra hne
    obtain ⟨stage, k, h⟩ := (unsettled_iff hcf).2 (ne_nil_of_recurs hij hback hne n)
    exact hn n (Nat.le_refl n) stage k h
  · intro hnew
    obtain ⟨n, -, hn⟩ := (isQueue_queue hcf).exists_empty hnew
    exact ⟨n, settles_of_empty hcf hn⟩

/-- Three symbols that are renamed in a ring. -/
def ring : Grammar where
  start := ⟨"A"⟩
  nonterminals := [⟨"A"⟩, ⟨"B"⟩, ⟨"C"⟩]
  terminals := [⟨"a"⟩]
  rules := [.ofHead ⟨"A"⟩ [⟨"B"⟩], .ofHead ⟨"B"⟩ [⟨"C"⟩], .ofHead ⟨"C"⟩ [⟨"A"⟩], .ofHead ⟨"C"⟩ [⟨"a"⟩]]
  nodup_nonterminals := by decide
  nodup_terminals := by decide
  wellFormed := defect?_eq_none_iff.1 (by decide)

/-- A ring of renamings settles, since its queue becomes empty. -/
theorem ring_settles : ring.isContextFree = true ∧ ∃ n, ∀ limit ≥ n, ∀ stage k,
    (ring.renamingFree limit).result ≠ .error (.unsettled stage k) := by
  have hcf : ring.isContextFree = true := by decide
  have hempty : next^[5] (queue ring) = [] := by decide_cbv
  refine ⟨hcf, (renamingFree_settles_iff hcf).2 fun i j hij hback => ?_⟩
  by_contra hne
  exact ne_nil_of_recurs hij hback hne 5 hempty

/-- Five symbols `v0` to `v4`, each renamed to the next, to the one after it, and to the one before
it. -/
def dense : Grammar where
  start := ⟨"v0"⟩
  nonterminals := [⟨"v0"⟩, ⟨"v1"⟩, ⟨"v2"⟩, ⟨"v3"⟩, ⟨"v4"⟩]
  terminals := [⟨"a"⟩]
  rules :=
    [.ofHead ⟨"v0"⟩ [⟨"v1"⟩], .ofHead ⟨"v1"⟩ [⟨"v2"⟩], .ofHead ⟨"v2"⟩ [⟨"v3"⟩],
      .ofHead ⟨"v3"⟩ [⟨"v4"⟩], .ofHead ⟨"v4"⟩ [⟨"v0"⟩], .ofHead ⟨"v0"⟩ [⟨"v2"⟩],
      .ofHead ⟨"v1"⟩ [⟨"v3"⟩], .ofHead ⟨"v2"⟩ [⟨"v4"⟩], .ofHead ⟨"v3"⟩ [⟨"v0"⟩],
      .ofHead ⟨"v4"⟩ [⟨"v1"⟩], .ofHead ⟨"v0"⟩ [⟨"v4"⟩], .ofHead ⟨"v1"⟩ [⟨"v0"⟩],
      .ofHead ⟨"v2"⟩ [⟨"v1"⟩], .ofHead ⟨"v3"⟩ [⟨"v2"⟩], .ofHead ⟨"v4"⟩ [⟨"v3"⟩]]
  nodup_nonterminals := by decide
  nodup_terminals := by decide
  wellFormed := defect?_eq_none_iff.1 (by decide)

theorem dense_recurs : next^[0] (queue dense) = next^[20] (queue dense) := by decide_cbv

/-- **Inlining need not settle**: no limit is enough for `dense`. -/
theorem dense_never_settles : dense.isContextFree = true ∧
    ∀ limit, ∃ stage k, (dense.renamingFree limit).result = .error (.unsettled stage k) := by
  have hcf : dense.isContextFree = true := by decide
  have hne : next^[0] (queue dense) ≠ [] := by decide_cbv
  exact ⟨hcf, fun limit =>
    (unsettled_iff hcf).2 (ne_nil_of_recurs (by decide) dense_recurs hne limit)⟩

/-! ## Renamings without cycles -/

/-- No symbol can be renamed back to itself. -/
def Acyclic (g : Grammar) : Prop :=
  ∀ x ∈ g.nonterminals, ∀ y ∈ g.nonterminals, Rule.ofHead x [y] ∈ g.rules → ¬ g.Renames y x

/-- Every renaming leads to a symbol of lower rank. -/
def Ranked (rank : Symbol → Nat) (q : List Rule) : Prop :=
  ∀ x y, Rule.ofHead x [y] ∈ q → rank y < rank x

/-- Without cycles, symbols can be ranked by the number of symbols that they can be renamed to. -/
theorem Acyclic.exists_rank (hcf : g.isContextFree = true) (hg : Acyclic g) :
    ∃ rank, Ranked rank (queue g) := by
  classical
  refine ⟨fun x => {z ∈ g.nonterminals.toFinset | g.Renames x z}.card, ?_⟩
  intro x y hxy
  obtain ⟨u, hu, v, hv, he⟩ := (isQueue_queue hcf).renamings _ hxy
  obtain ⟨rfl, hy⟩ := Rule.ofHead_inj.1 he
  obtain rfl := List.singleton_inj.1 hy
  have hrule : Rule.ofHead x [y] ∈ g.rules := mem_distinct.1 (List.mem_filter.1 hxy).1
  refine Finset.card_lt_card (Finset.ssubset_iff_of_subset ?_ |>.2 ⟨x, ?_, ?_⟩)
  · intro z hz
    rw [Finset.mem_filter] at hz ⊢
    exact ⟨hz.1, .step hrule hv hz.2⟩
  · exact Finset.mem_filter.2 ⟨List.mem_toFinset.2 hu, .refl x⟩
  · exact fun hx => hg x hu y hv hrule (Finset.mem_filter.1 hx).2

/-- How much a right side weighs: the rank of its symbol counts in powers of a number that is greater
than that of all right sides. -/
def weight (g : Grammar) (rank : Symbol → Nat) (right : List Symbol) : Nat :=
  (g.nonterminals.length + 1) ^ (right.map rank).sum

/-- How much a queue weighs. -/
def load (g : Grammar) (rank : Symbol → Nat) (q : List Rule) : Nat :=
  (q.map fun rule => weight g rank rule.right).sum

variable {rank : Symbol → Nat}

/-- What is inherited along the first renaming of a queue is a nonterminal of lower rank than its
target. -/
theorem exists_of_mem_inherited {right : List Symbol} (hq : IsQueue g (.ofHead x [y] :: q))
    (hr : Ranked rank (.ofHead x [y] :: q)) (h : right ∈ inherited q [x] x [y]) :
    ∃ z ∈ g.nonterminals, right = [z] ∧ rank z < rank y := by
  have hmem := List.mem_cons_of_mem (Rule.ofHead x [y]) (mem_inherited_iff.1 h).1
  obtain ⟨u, -, z, hz, he⟩ := hq.renamings _ hmem
  obtain rfl : right = [z] := (Rule.ofHead_inj.1 he).2
  exact ⟨z, hz, rfl, hr y z hmem⟩

/-- What a head inherits weighs less than what it gives up. -/
theorem sum_weight_inherited_lt (hq : IsQueue g (.ofHead x [y] :: q))
    (hr : Ranked rank (.ofHead x [y] :: q)) :
    ((inherited q [x] x [y]).map (weight g rank)).sum < weight g rank [y] := by
  have hitem := fun right (h : right ∈ inherited q [x] x [y]) => exists_of_mem_inherited hq hr h
  generalize hitems : inherited q [x] x [y] = items at hitem
  have hnodup : items.Nodup := hitems ▸ nodup_distinct _
  have hsub : items ⊆ g.nonterminals.map fun z => [z] := fun right h => by
    obtain ⟨z, hz, rfl, -⟩ := hitem right h
    exact List.mem_map_of_mem hz
  have hlength : items.length ≤ g.nonterminals.length := by
    simpa using hnodup.length_le_of_subset hsub
  have hweight : weight g rank [y] = (g.nonterminals.length + 1) ^ rank y := by simp [weight]
  rw [hweight]
  cases hy : rank y with
  | zero =>
    have hnil : items = [] := List.eq_nil_iff_forall_not_mem.2 fun right h => by
      obtain ⟨z, -, -, hz⟩ := hitem right h
      omega
    simp [hnil]
  | succ k =>
    -- each item has a lower rank, and there are fewer items than the base of the power
    have hle : ∀ m ∈ items.map (weight g rank), m ≤ (g.nonterminals.length + 1) ^ k := by
      intro m hm
      obtain ⟨right, hright, rfl⟩ := List.mem_map.1 hm
      obtain ⟨z, -, rfl, hz⟩ := hitem right hright
      rw [weight, List.map_singleton, List.sum_singleton]
      exact Nat.pow_le_pow_right (Nat.succ_pos _) (by omega)
    calc (items.map (weight g rank)).sum
      _ ≤ items.length * (g.nonterminals.length + 1) ^ k := by
          simpa using List.sum_le_card_nsmul _ _ hle
      _ ≤ g.nonterminals.length * (g.nonterminals.length + 1) ^ k := Nat.mul_le_mul_right _ hlength
      _ < (g.nonterminals.length + 1) * (g.nonterminals.length + 1) ^ k :=
          Nat.mul_lt_mul_of_pos_right (Nat.lt_succ_self _) (Nat.pow_pos (Nat.succ_pos _))
      _ = (g.nonterminals.length + 1) ^ (k + 1) := by rw [Nat.pow_succ, Nat.mul_comm]

/-- Renamings keep leading down, and the queue becomes lighter. -/
theorem Ranked.next (hq : IsQueue g (.ofHead x [y] :: q)) (hr : Ranked rank (.ofHead x [y] :: q)) :
    Ranked rank (RenamingFree.next (.ofHead x [y] :: q)) ∧
      load g rank (RenamingFree.next (.ofHead x [y] :: q)) <
        load g rank (.ofHead x [y] :: q) := by
  rw [next_cons]
  constructor
  · intro u v huv
    rcases List.mem_append.1 huv with huv | huv
    · exact hr u v (List.mem_cons_of_mem _ huv)
    · obtain ⟨right, hright, he⟩ := List.mem_map.1 huv
      obtain ⟨z, -, rfl, hz⟩ := exists_of_mem_inherited hq hr hright
      obtain ⟨rfl, hv⟩ := Rule.ofHead_inj.1 he
      obtain rfl := List.singleton_inj.1 hv
      exact hz.trans (hr x y (List.mem_cons_self ..))
  · have hlt := sum_weight_inherited_lt hq hr
    simp only [load, List.map_append, List.sum_append, List.map_map, List.map_cons, List.sum_cons]
    rw [Nat.add_comm]
    exact Nat.add_lt_add_right hlt _

theorem Ranked.exists_empty (hq : IsQueue g q) (hr : Ranked rank q) :
    ∃ n ≤ load g rank q, RenamingFree.next^[n] q = [] := by
  induction hload : load g rank q using Nat.strongRecOn generalizing q with
  | ind m ih =>
    cases q with
    | nil => exact ⟨0, Nat.zero_le _, rfl⟩
    | cons unit rest =>
      obtain ⟨x, -, y, -, rfl⟩ := hq.renamings unit (List.mem_cons_self ..)
      obtain ⟨hr', hlt⟩ := Ranked.next hq hr
      obtain ⟨n, hle, hn⟩ := ih _ (hload ▸ hlt) hq.next hr' rfl
      exact ⟨n + 1, by omega, hn⟩

/-- **Inlining settles where nothing is renamed in a cycle.** -/
theorem settles_of_acyclic (hcf : g.isContextFree = true) (hg : Acyclic g) :
    ∃ n, ∀ limit ≥ n, ∀ stage k, (g.renamingFree limit).result ≠ .error (.unsettled stage k) := by
  obtain ⟨rank, hr⟩ := hg.exists_rank hcf
  obtain ⟨n, -, hn⟩ := hr.exists_empty (isQueue_queue hcf)
  exact ⟨n, settles_of_empty hcf hn⟩

end RenamingFree

end NormalGrammar
