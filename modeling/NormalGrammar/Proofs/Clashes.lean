import Mathlib.Data.Bool.Basic
import Mathlib.Data.List.Sigma
import NormalGrammar.Proofs.WrittenRules

/-!
# Names that are written in two ways

That nothing is reported just when every name is written in one way is known (`clashes_eq_nil_iff`).
This file asks what is reported otherwise.  The search remembers in which ways names were written and
reports a second way where it finds one.  That sounds as if the order of the ways mattered, but there
are only two: once both have been found, a name is not reported again.

* A use is reported just when the uses before it are of its name, all in the other way
  (`clashesAfter_eq`).
* That is the case at the earliest use that is written differently from the very first use of its name,
  and nowhere else (`turn?_eq_some_iff`).
* So every name that is written in two ways is reported once, at that use, and the reports come in the
  order of these uses (`mixed_names_reported`).
-/

namespace NormalGrammar

variable {before : List (String × Bool)} {seen os uses : List Occurrence} {o first : Occurrence}
  {i : Nat} {name : String} {lines : List Line}

/-! ## Uses that are reported -/

/-- Whether a name is written bare and quoted in some lines. -/
def IsMixed (lines : List Line) (name : String) : Prop :=
  .bare name ∈ lines.flatMap Line.words ∧ .quoted name ∈ lines.flatMap Line.words

instance (lines : List Line) (name : String) : Decidable (IsMixed lines name) :=
  inferInstanceAs (Decidable (_ ∧ _))

/-- Whether a use is the first of its name in its way, after uses in the other way. -/
def Occurrence.TurnsAfter (seen : List Occurrence) (o : Occurrence) : Prop :=
  (o.name, !o.quoted) ∈ seen.map written ∧ o.written ∉ seen.map written

instance (seen : List Occurrence) (o : Occurrence) : Decidable (o.TurnsAfter seen) :=
  inferInstanceAs (Decidable (_ ∧ _))

/-- **The uses that are reported** are those that turn after the uses before them. -/
theorem clashesAfter_eq (hbefore : ∀ use, use ∈ before ↔ use ∈ seen.map Occurrence.written) :
    clashesAfter before os = ((os.zipIdx seen.length).filter fun turn =>
      decide (turn.1.TurnsAfter ((seen ++ os).take turn.2))).map Prod.fst := by
  induction os generalizing before seen with
  | nil => rfl
  | cons o rest ih =>
    have hsplit : seen ++ o :: rest = (seen ++ [o]) ++ rest := by simp
    have hlength : seen.length + 1 = (seen ++ [o]).length := by simp
    rw [clashesAfter, List.zipIdx_cons, List.filter_cons, List.take_left, hsplit, hlength]
    by_cases hknown : (o.name, o.quoted) ∈ before
    · have hturns : ¬ o.TurnsAfter seen := fun h => h.2 ((hbefore _).1 hknown)
      rw [if_pos hknown, if_neg (by simpa using hturns)]
      apply ih
      intro use
      rw [hbefore, List.map_append, List.mem_append, List.map_singleton, List.mem_singleton]
      refine ⟨.inl, ?_⟩
      rintro (h | rfl)
      · exact h
      · exact (hbefore _).1 hknown
    · have hlater := @ih ((o.name, o.quoted) :: before) (seen ++ [o]) fun use => by
        simp [hbefore, Occurrence.written, or_comm]
      have hnew : o.written ∉ seen.map Occurrence.written := fun h => hknown ((hbefore _).2 h)
      simp only [if_neg hknown, hlater]
      by_cases hother : (o.name, !o.quoted) ∈ before
      · have hturns : o.TurnsAfter seen := ⟨(hbefore _).1 hother, hnew⟩
        rw [if_pos hother, if_pos (by simpa using hturns), List.map_cons]
      · have hturns : ¬ o.TurnsAfter seen := fun h => hother ((hbefore _).2 h.1)
        rw [if_neg hother, if_neg (by simpa using hturns)]

/-! ## Where a name turns -/

/-- Whether a use is written differently from the first use of its name. -/
def Occurrence.deviates (uses : List Occurrence) (o : Occurrence) : Bool :=
  (uses.find? (·.name = o.name)).any (·.quoted ≠ o.quoted)

/-- The earliest use of a name that is written differently from the very first one, and the number of
uses before it. -/
def turn? (uses : List Occurrence) (name : String) : Option (Occurrence × Nat) :=
  uses.zipIdx.find? fun turn => turn.1.name = name ∧ turn.1.deviates uses

theorem exists_first {quoted : Bool} (hway : (name, quoted) ∈ uses.map Occurrence.written) :
    ∃ first, uses.find? (·.name = name) = some first := by
  obtain ⟨q, hq, hwritten⟩ := List.mem_map.1 hway
  rw [← Option.isSome_iff_exists, List.find?_isSome]
  exact ⟨q, hq, decide_eq_true (Prod.mk.inj hwritten).1⟩

theorem mem_of_first (hfirst : uses.find? (·.name = name) = some first) :
    first ∈ uses ∧ first.name = name :=
  ⟨List.mem_of_find?_eq_some hfirst, by simpa using List.find?_some hfirst⟩

/-- A use is written differently from the first use of its name if the two are written in different
ways, wherever it is. -/
theorem Occurrence.deviates_iff (hfirst : seen.find? (·.name = name) = some first)
    (hname : o.name = name) (rest : List Occurrence) :
    o.deviates (seen ++ rest) = true ↔ first.quoted ≠ o.quoted := by
  subst hname
  simp [deviates, List.find?_append, hfirst]

/-- A use turns just when it is written differently from the first use of its name, and none before it
is. -/
theorem Occurrence.turnsAfter_iff (rest : List Occurrence) : o.TurnsAfter seen ↔
    o.deviates (seen ++ o :: rest) = true ∧
      ∀ p ∈ seen, p.name = o.name → p.deviates (seen ++ o :: rest) = false := by
  constructor
  · rintro ⟨hother, hnew⟩
    -- none before is written as this one, so all of its name are written in the other way
    have hways : ∀ p ∈ seen, p.name = o.name → p.quoted = !o.quoted := by
      intro p hp hname
      rw [Bool.eq_not_iff]
      intro hquoted
      exact hnew (List.mem_map.2 ⟨p, hp, by rw [written, written, hname, hquoted]⟩)
    obtain ⟨first, hfirst⟩ := exists_first hother
    obtain ⟨hmem, hname⟩ := mem_of_first hfirst
    have hway : first.quoted = !o.quoted := hways first hmem hname
    refine ⟨(deviates_iff hfirst rfl _).2 (by simp [hway]), fun p hp hname => ?_⟩
    rw [← Bool.not_eq_true, deviates_iff hfirst hname]
    simp [hway, hways p hp hname]
  · rintro ⟨hdeviates, hbefore⟩
    cases hfirst : seen.find? (·.name = o.name) with
    | none => simp [deviates, List.find?_append, hfirst] at hdeviates
    | some first =>
      have hway := (deviates_iff hfirst rfl _).1 hdeviates
      obtain ⟨hmem, hname⟩ := mem_of_first hfirst
      constructor
      · refine List.mem_map.2 ⟨first, hmem, ?_⟩
        rw [written, hname, Bool.eq_not_iff.2 hway]
      · intro hwritten
        obtain ⟨p, hp, hpo⟩ := List.mem_map.1 hwritten
        obtain ⟨hpname, hpquoted⟩ := Prod.mk.inj hpo
        have hsame := hbefore p hp hpname
        rw [← Bool.not_eq_true, deviates_iff hfirst hpname, hpquoted] at hsame
        exact hsame hway

/-- **Where a name turns**: at the use of this name that turns after the uses before it. -/
theorem turn?_eq_some_iff : turn? uses name = some (o, i) ↔
    ∃ seen rest, uses = seen ++ o :: rest ∧ i = seen.length ∧ o.name = name ∧ o.TurnsAfter seen := by
  rw [turn?, List.find?_eq_some_iff_append]
  constructor
  · rintro ⟨hturn, earlier, later, hsplit, hearlier⟩
    obtain ⟨seen, tail, rfl, rfl, htail⟩ := List.zipIdx_eq_append_iff.1 hsplit
    obtain ⟨_, rest, rfl, ho, -⟩ := List.zipIdx_eq_cons_iff.1 htail.symm
    obtain ⟨rfl, rfl⟩ := Prod.mk.inj ho
    obtain ⟨rfl, hdeviates⟩ := of_decide_eq_true hturn
    refine ⟨seen, rest, rfl, Nat.zero_add _, rfl, (Occurrence.turnsAfter_iff rest).2 ⟨hdeviates, ?_⟩⟩
    rw [← List.zipIdx_map_fst 0 seen, List.forall_mem_map]
    intro turn hmem hname
    simpa [hname] using hearlier turn hmem
  · rintro ⟨seen, rest, rfl, rfl, rfl, hturns⟩
    obtain ⟨hdeviates, hbefore⟩ := (Occurrence.turnsAfter_iff rest).1 hturns
    refine ⟨by simpa using hdeviates, seen.zipIdx, rest.zipIdx (seen.length + 1), ?_, ?_⟩
    · rw [List.zipIdx_append, List.zipIdx_cons, Nat.zero_add]
    · intro turn hmem
      have hseen := hbefore turn.1 (List.fst_mem_of_mem_zipIdx hmem)
      simpa [← imp_iff_not_or] using hseen

/-- The uses at which names turn, with the numbers of uses before them. -/
def turns (uses : List Occurrence) : List (Occurrence × Nat) :=
  uses.zipIdx.filter fun turn => turn.1.TurnsAfter (uses.take turn.2)

theorem mem_turns_iff {turn : Occurrence × Nat} :
    turn ∈ turns uses ↔ turn? uses turn.1.name = some turn := by
  obtain ⟨o, i⟩ := turn
  rw [turns, List.mem_filter, List.mk_mem_zipIdx_iff_getElem?, turn?_eq_some_iff]
  constructor
  · rintro ⟨ho, hturns⟩
    obtain ⟨hi, rfl⟩ := List.getElem?_eq_some_iff.1 ho
    refine ⟨uses.take i, uses.drop (i + 1), ?_, ?_, rfl, of_decide_eq_true hturns⟩
    · rw [← List.drop_eq_getElem_cons hi, List.take_append_drop]
    · rw [List.length_take, Nat.min_eq_left (Nat.le_of_lt hi)]
  · rintro ⟨seen, rest, rfl, rfl, -, hturns⟩
    refine ⟨by simp, ?_⟩
    rw [List.take_left]
    exact decide_eq_true hturns

/-! ## Names that are reported -/

theorem isMixed_iff : IsMixed lines name ↔
    ∀ quoted, (name, quoted) ∈ (lines.flatMap Line.occurrences).map Occurrence.written := by
  have hbare : ∀ word, Line.nameOf? word = some (name, false) ↔ word = .bare name := by
    intro word
    cases word <;> simp [Line.nameOf?]
  have hquoted : ∀ word, Line.nameOf? word = some (name, true) ↔ word = .quoted name := by
    intro word
    cases word <;> simp [Line.nameOf?]
  rw [Bool.forall_bool, map_written_occurrences]
  simp only [List.mem_filterMap, hbare, hquoted, exists_eq_right]
  rfl

/-- A name is used in both ways just when it turns somewhere. -/
theorem exists_turn?_iff : (∃ turn, turn? uses name = some turn) ↔
    ∀ quoted, (name, quoted) ∈ uses.map Occurrence.written := by
  constructor
  · rintro ⟨⟨o, i⟩, hturn⟩ quoted
    obtain ⟨seen, rest, rfl, -, rfl, hother, -⟩ := turn?_eq_some_iff.1 hturn
    rw [List.map_append, List.map_cons, List.mem_append, List.mem_cons]
    by_cases hway : quoted = o.quoted
    · exact .inr (.inl (by rw [hway, Occurrence.written]))
    · rw [Bool.eq_not_iff.2 hway]
      exact .inl hother
  · intro hways
    rw [← Option.isSome_iff_exists, turn?, List.find?_isSome]
    obtain ⟨first, hfirst⟩ := exists_first (hways true)
    obtain ⟨o, ho, hwritten⟩ := List.mem_map.1 (hways (!first.quoted))
    obtain ⟨hname, hquoted⟩ := Prod.mk.inj hwritten
    obtain ⟨i, hi⟩ := List.getElem?_of_mem ho
    refine ⟨(o, i), List.mk_mem_zipIdx_iff_getElem?.2 hi, ?_⟩
    have hdeviates := (Occurrence.deviates_iff hfirst hname []).2 (by simp [hquoted])
    rw [List.append_nil] at hdeviates
    simp [hname, hdeviates]

theorem clashes_ne_nil_iff : clashes lines ≠ [] ↔ ∃ name, IsMixed lines name := by
  rw [Ne, clashes_eq_nil_iff, ← map_written_occurrences, OneWay, not_forall]
  refine exists_congr fun name => ?_
  rw [not_not, isMixed_iff, Bool.forall_bool, and_comm]

/-- What is reported are the turns. -/
theorem clashes_eq (lines : List Line) : clashes lines =
    (turns (lines.flatMap Line.occurrences)).map fun turn =>
      ⟨turn.1.place, .mixedName turn.1.name⟩ := by
  have hall := @clashesAfter_eq [] [] (lines.flatMap Line.occurrences) (by simp)
  rw [clashes, hall, List.map_map]
  rfl

theorem nodup_turns (uses : List Occurrence) : ((turns uses).map fun turn => turn.1.name).Nodup := by
  refine List.Nodup.map_on (fun turn hturn turn' hturn' hname => ?_) ?_
  · rw [mem_turns_iff] at hturn hturn'
    rw [hname, hturn'] at hturn
    exact (Option.some.inj hturn).symm
  · exact (List.Nodup.of_map _ (List.nodup_zipIdx_map_snd uses)).filter _

theorem pairwise_turns (uses : List Occurrence) :
    (turns uses).Pairwise fun turn later => turn.2 < later.2 := by
  refine List.Pairwise.filter _ (List.pairwise_map.1 ?_)
  rw [List.zipIdx_map_snd]
  exact List.pairwise_lt_range'

/-- **Names that are written in two ways are reported**, each once, where it is first written differently
from how it was first written; and nothing else is. -/
theorem mixed_names_reported (lines : List Line) :
    (clashes lines ≠ [] ↔ ∃ name, IsMixed lines name) ∧
      (∃ reported : List (Occurrence × Nat),
        (reported.map fun turn => turn.1.name).Nodup ∧
        (∀ name, name ∈ (reported.map fun turn => turn.1.name) ↔ IsMixed lines name) ∧
        (∀ turn ∈ reported, turn? (lines.flatMap Line.occurrences) turn.1.name = some turn) ∧
        reported.Pairwise (fun turn later => turn.2 < later.2) ∧
        clashes lines = reported.map fun turn => ⟨turn.1.place, .mixedName turn.1.name⟩) ∧
      ∀ path word, lines.head?.bind (·.left.head?) = some word →
        Source.ofLines path lines = ⟨undefinedUses lines,
          if clashes lines = [] then Source.grammarOf path word lines else .error (clashes lines)⟩ := by
  refine ⟨clashes_ne_nil_iff, ⟨turns (lines.flatMap Line.occurrences), nodup_turns _, ?_,
    fun turn => mem_turns_iff.1, pairwise_turns _, clashes_eq lines⟩,
    fun path word hword => Source.ofLines_of_some hword⟩
  intro name
  rw [isMixed_iff, ← exists_turn?_iff, List.mem_map]
  constructor
  · rintro ⟨turn, hturn, rfl⟩
    exact ⟨turn, mem_turns_iff.1 hturn⟩
  · rintro ⟨⟨o, i⟩, hturn⟩
    obtain ⟨_, _, -, -, hname, -⟩ := turn?_eq_some_iff.1 hturn
    exact ⟨(o, i), mem_turns_iff.2 (hname ▸ hturn), hname⟩

/-- Lines in which names turn: `a` in the second alternative of the first line, and back again there; `A`
on the left of the second line, and back on the left of the third; and `S` after both, on the right of
the second line. -/
def turning : List Line :=
  [⟨[.bare "S"], [[.bare "a", .quoted "A"], [.quoted "a", .bare "a", .bare "S"]], ⟨"t", 1⟩⟩,
    ⟨[.bare "A"], [[.epsilon], [.quoted "a", .quoted "S", .bare "B"]], ⟨"t", 2⟩⟩,
    ⟨[.quoted "A", .bare "S"], [[.quoted "b"]], ⟨"t", 3⟩⟩]

/-- Three names are written in two ways in `turning`, and each is reported once. -/
theorem turning_reported :
    (turning.head?.bind (·.left.head?) = some (.bare "S")) ∧ IsMixed turning "A" ∧
      (Source.ofLines "t" turning).result = .error [⟨⟨"t", 1⟩, .mixedName "a"⟩,
        ⟨⟨"t", 2⟩, .mixedName "A"⟩, ⟨⟨"t", 2⟩, .mixedName "S"⟩] := by
  obtain ⟨hclashes, -, hreading⟩ := mixed_names_reported turning
  have hmixed : IsMixed turning "A" := by decide
  have hresult := hreading "t" (.bare "S") rfl
  rw [if_neg (hclashes.2 ⟨_, hmixed⟩)] at hresult
  rw [hresult]
  exact ⟨rfl, hmixed, congrArg Except.error (by decide)⟩

end NormalGrammar
