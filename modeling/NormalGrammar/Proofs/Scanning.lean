import NormalGrammar.Source.Rendering

/-!
# Reading tokens back

The tokens of a line are read back from every way of writing them (`scan_of_renders`), and what is
read from a line is written there, by tokens that can be written (`written_of_scan`).  So the lines
that give some tokens are exactly the ways of writing them (`scan_eq_ok_iff`).

A bare word ends where a character stands that is no word character (`Stops`); that is why two bare
neighbours need a blank between them.
-/

namespace NormalGrammar
namespace Token

variable {c : Char} {cs word rest : List Char} {token : Token} {tokens : List Token}
  {name text : String} {isBare afterBare : Bool}

/-! ## Single words -/

/-- No bare word goes on here. -/
def Stops (cs : List Char) : Prop := ∀ c ∈ cs.head?, isWordChar c = false

theorem Stops.takeWhile_eq (h : Stops cs) : cs.takeWhile isWordChar = [] := by
  cases cs with
  | nil => rfl
  | cons c cs => rw [List.takeWhile_cons_of_neg (by simp [h c rfl])]

theorem Stops.dropWhile_eq (h : Stops cs) : cs.dropWhile isWordChar = cs := by
  cases cs with
  | nil => rfl
  | cons c cs => rw [List.dropWhile_cons_of_neg (by simp [h c rfl])]

theorem stops_dropWhile (cs : List Char) : Stops (cs.dropWhile isWordChar) := by
  intro c hc
  have hhead := List.head?_dropWhile_not isWordChar cs
  rwa [Option.mem_def.1 hc] at hhead

/-- A bare word is read up to where none goes on. -/
theorem readBare_append (hname : ∀ c ∈ name.toList, isWordChar c = true) (hrest : Stops rest) :
    readBare (name.toList ++ rest) =
      (if name = Symbol.epsilon.name then .epsilon else .bare name, rest) := by
  rw [readBare, List.takeWhile_append_of_pos hname, List.dropWhile_append_of_pos hname,
    hrest.takeWhile_eq, hrest.dropWhile_eq, List.append_nil, String.ofList_toList]

/-- What is read as a bare word is written there, and no bare word goes on after it. -/
theorem readBare_spec (hc : isWordChar c = true) (cs : List Char) :
    ∃ word, c :: cs = word ++ (readBare (c :: cs)).2 ∧ Spells (readBare (c :: cs)).1 word true ∧
      (readBare (c :: cs)).1.IsWritable ∧ Stops (readBare (c :: cs)).2 := by
  refine ⟨(c :: cs).takeWhile isWordChar, List.takeWhile_append_dropWhile.symm, ?_, ?_,
    stops_dropWhile _⟩
  · unfold readBare
    dsimp only
    split
    · rename_i hε
      rw [← String.toList_ofList (l := (c :: cs).takeWhile isWordChar), hε]
      exact .bareEpsilon
    · have h := Spells.bare (String.ofList ((c :: cs).takeWhile isWordChar))
      rwa [String.toList_ofList] at h
  · unfold readBare
    dsimp only
    split
    · trivial
    · rename_i hε
      refine ⟨?_, hε, ?_⟩
      · simp [hc]
      · rw [String.toList_ofList]
        exact List.all_eq_true.1 List.all_takeWhile

theorem readQuoted_append (htext : '"' ∉ text.toList) :
    readQuoted ('"' :: text.toList ++ '"' :: rest) =
      (.ok (if text = "" then .epsilon else .quoted text), rest) := by
  have hall : ∀ c ∈ text.toList, (c != '"') = true := by
    intro c hc
    have hne : c ≠ '"' := fun h => htext (h ▸ hc)
    simpa using hne
  rw [readQuoted]
  simp only [List.cons_append, List.tail_cons, List.takeWhile_append_of_pos hall,
    List.dropWhile_append_of_pos hall, List.dropWhile_cons_of_neg, List.takeWhile_cons_of_neg,
    bne_self_eq_false, Bool.false_eq_true, not_false_eq_true, List.append_nil,
    String.ofList_toList, String.toList_eq_nil_iff]

theorem exists_quoted (cs : List Char) : cs.dropWhile (· != '"') = [] ∨
    ∃ (text : String) (rest : List Char), '"' ∉ text.toList ∧ cs = text.toList ++ '"' :: rest := by
  have hstop := List.head?_dropWhile_not (· != '"') cs
  have hsplit := @List.takeWhile_append_dropWhile _ (· != '"') cs
  cases hrest : cs.dropWhile (· != '"') with
  | nil => exact .inl rfl
  | cons c rest =>
    rw [hrest] at hstop hsplit
    obtain rfl : c = '"' := by simpa using hstop
    refine .inr ⟨String.ofList (cs.takeWhile (· != '"')), rest, ?_, ?_⟩
    · rw [String.toList_ofList]
      intro hmem
      simpa using List.all_eq_true.1 List.all_takeWhile _ hmem
    · rw [String.toList_ofList, hsplit]

/-- What is read as a quoted word is written there. -/
theorem readQuoted_spec (h : (readQuoted ('"' :: cs)).1 = .ok token) :
    ∃ word, '"' :: cs = word ++ (readQuoted ('"' :: cs)).2 ∧ Spells token word false ∧
      token.IsWritable := by
  rcases exists_quoted cs with hnil | ⟨text, rest, htext, rfl⟩
  · simp [readQuoted, hnil] at h
  · rw [← List.cons_append, readQuoted_append htext] at h ⊢
    obtain rfl := Except.ok.inj h
    refine ⟨'"' :: text.toList ++ ['"'], by simp, ?_⟩
    split
    · rename_i hnil
      rw [hnil]
      exact ⟨.twoQuotes, trivial⟩
    · rename_i hnil
      exact ⟨.quoted text, hnil, htext⟩

/-! ## One token after the other -/

@[simp]
theorem scan_nil : scan [] = .ok [] := by rw [scan]

@[simp]
theorem scan_comment (cs : List Char) : scan (';' :: cs) = .ok [] := by
  rw [scan]
  rfl

@[simp]
theorem scan_equals (cs : List Char) : scan ('=' :: cs) = (scan cs).map (.equals :: ·) := by
  rw [scan]
  rfl

@[simp]
theorem scan_bar (cs : List Char) : scan ('|' :: cs) = (scan cs).map (.bar :: ·) := by
  rw [scan]
  rfl

theorem scan_quote (cs : List Char) : scan ('"' :: cs) =
    match (readQuoted ('"' :: cs)).1 with
    | .error e => .error e
    | .ok token => (scan (readQuoted ('"' :: cs)).2).map (token :: ·) := by
  rw [scan]
  rfl

theorem scan_blank (hc : Text.isBlank c = true) (cs : List Char) : scan (c :: cs) = scan cs := by
  have hne : ∀ d, Text.isBlank d = false → c ≠ d := fun d => Text.ne_of_isBlank hc
  rw [scan]
  simp [hne ';' (by decide), hne '=' (by decide), hne '|' (by decide), hne '"' (by decide), hc]

theorem scan_wordChar (hc : isWordChar c = true) (cs : List Char) :
    scan (c :: cs) = (scan (readBare (c :: cs)).2).map ((readBare (c :: cs)).1 :: ·) := by
  rw [scan]
  simp [isWordChar] at hc
  simp [hc]

/-- The first token of a line is read, and then those after it. -/
theorem scan_spelled (hs : Spells token word isBare) (hw : token.IsWritable)
    (hrest : isBare = true → Stops rest) :
    scan (word ++ rest) = (scan rest).map (token :: ·) := by
  cases hs with
  | equals => exact scan_equals rest
  | bar => exact scan_bar rest
  | bare name =>
    obtain ⟨hne, hε, hname⟩ := hw
    have hread := readBare_append hname (hrest rfl)
    rw [if_neg hε] at hread
    obtain ⟨c, cs, hcs⟩ := List.exists_cons_of_ne_nil (l := name.toList) (by simpa using hne)
    rw [hcs] at hname hread ⊢
    rw [List.cons_append, scan_wordChar (hname c (List.mem_cons_self ..)), ← List.cons_append, hread]
  | quoted text =>
    obtain ⟨hne, htext⟩ := hw
    have hread : readQuoted ('"' :: text.toList ++ '"' :: rest) = _ := readQuoted_append htext
    rw [if_neg hne] at hread
    rw [List.append_assoc, List.singleton_append]
    rw [List.cons_append] at hread ⊢
    rw [scan_quote, hread]
  | twoQuotes =>
    have hread : readQuoted (['"', '"'] ++ rest) = (.ok .epsilon, rest) := rfl
    rw [List.cons_append] at hread ⊢
    rw [scan_quote, hread]
  | bareEpsilon =>
    have hε : Symbol.epsilon.name.toList = ['ε'] := by decide
    have hword : ∀ c ∈ Symbol.epsilon.name.toList, isWordChar c = true := by
      rw [hε]
      exact List.forall_mem_singleton.2 (by decide)
    have hread : readBare (Symbol.epsilon.name.toList ++ rest) = (.epsilon, rest) :=
      readBare_append hword (hrest rfl)
    rw [hε] at hread ⊢
    rw [List.cons_append] at hread ⊢
    rw [scan_wordChar (by decide), hread]

/-! ## Lines -/

theorem Spells.stops (hs : Spells token word false) (cs : List Char) : Stops (word ++ cs) := by
  intro c hc
  cases hs <;> (obtain rfl := Option.some.inj hc; decide)

theorem Spells.not_stops (hs : Spells token word true) (hw : token.IsWritable) (cs : List Char) :
    ¬ Stops (word ++ cs) := by
  intro hstops
  cases hs with
  | bare name =>
    obtain ⟨hne, -, hname⟩ := hw
    obtain ⟨c, rest, hc⟩ := List.exists_cons_of_ne_nil (l := name.toList) (by simpa using hne)
    rw [hc] at hname hstops
    have hword := hname c (List.mem_cons_self ..)
    rw [hstops c rfl] at hword
    cases hword
  | bareEpsilon => exact absurd (hstops 'ε' rfl) (by decide)

theorem Renders.stops (hr : Renders true tokens cs) : Stops cs := by
  cases hr with
  | done => exact nofun
  | comment =>
    intro c hc
    obtain rfl := Option.some.inj hc
    decide
  | blank hblank _ =>
    intro c hc
    obtain rfl := Option.some.inj hc
    simp [isWordChar, hblank]
  | @token _ isBare _ _ _ _ hs hgap _ =>
    obtain rfl : isBare = false := by simpa using hgap
    exact hs.stops _

/-- **What is written is read back**, however it is written. -/
theorem scan_of_renders (hr : Renders afterBare tokens cs) (hw : ∀ token ∈ tokens, token.IsWritable) :
    scan cs = .ok tokens := by
  induction hr with
  | done => exact scan_nil
  | comment => exact scan_comment _
  | blank hc _ ih => rw [scan_blank hc, ih hw]
  | @token _ isBare _ _ _ _ hs _ hr ih =>
    obtain ⟨htoken, htokens⟩ := List.forall_mem_cons.1 hw
    have hstops : isBare = true → Stops _ := fun h => (h ▸ hr).stops
    rw [scan_spelled hs htoken hstops, ih htokens]
    rfl

/-- Where no bare word goes on, it does not matter whether a bare word stands just before. -/
theorem Renders.of_stops (hr : Renders false tokens cs) (hstops : Stops cs)
    (hw : ∀ token ∈ tokens, token.IsWritable) (afterBare : Bool) : Renders afterBare tokens cs := by
  cases hr with
  | done => exact .done _
  | comment => exact .comment _ _
  | blank hc hr => exact .blank hc hr
  | @token _ isBare _ _ _ rest hs _ hr =>
    cases isBare with
    | false => exact .token hs (Bool.and_false _) hr
    | true => exact absurd hstops (hs.not_stops (hw _ (List.mem_cons_self ..)) rest)

/-- What may stand just after a bare word may stand anywhere. -/
theorem Renders.of_afterBare (hr : Renders true tokens cs) (afterBare : Bool) :
    Renders afterBare tokens cs := by
  cases hr with
  | done => exact .done _
  | comment => exact .comment _ _
  | blank hc hr => exact .blank hc hr
  | @token _ isBare _ _ _ _ hs hgap hr =>
    obtain rfl : isBare = false := by simpa using hgap
    exact .token hs (Bool.and_false _) hr

/-- A line is a way of writing some tokens, and all of them can be written. -/
def Written (tokens : List Token) (cs : List Char) : Prop :=
  Renders false tokens cs ∧ ∀ token ∈ tokens, token.IsWritable

/-- A token is written before those that are read after it. -/
theorem written_append (hs : Spells token word isBare) (hw : token.IsWritable)
    (hrest : isBare = true → Stops rest) (ih : ∀ {later}, scan rest = .ok later → Written later rest)
    (h : (scan rest).map (token :: ·) = .ok tokens) : Written tokens (word ++ rest) := by
  cases hscan : scan rest with
  | error e =>
    rw [hscan] at h
    cases h
  | ok later =>
    rw [hscan] at h
    obtain rfl := Except.ok.inj h
    obtain ⟨hr, hlater⟩ := ih hscan
    refine ⟨.token hs rfl ?_, List.forall_mem_cons.2 ⟨hw, hlater⟩⟩
    cases isBare with
    | false => exact hr
    | true => exact hr.of_stops (hrest rfl) hlater true

/-- **What is read is written there**, by tokens that can be written. -/
theorem written_of_scan (h : scan cs = .ok tokens) : Written tokens cs := by
  fun_induction scan cs generalizing tokens with
  | case1 =>
    obtain rfl := Except.ok.inj h
    exact ⟨.done false, nofun⟩
  | case2 c cs hc =>
    obtain rfl : c = ';' := by simpa using hc
    obtain rfl := Except.ok.inj h
    exact ⟨.comment false cs, nofun⟩
  | case3 c cs _ hc ih =>
    obtain rfl : c = '=' := by simpa using hc
    exact written_append .equals trivial nofun ih h
  | case4 c cs _ _ hc ih =>
    obtain rfl : c = '|' := by simpa using hc
    exact written_append .bar trivial nofun ih h
  | case5 => cases h
  | case6 c cs _ _ _ hc token hread ih =>
    obtain rfl : c = '"' := by simpa using hc
    obtain ⟨word, hword, hs, hw⟩ := readQuoted_spec hread
    rw [hword]
    exact written_append hs hw nofun ih h
  | case7 c cs _ _ _ _ hc ih =>
    obtain ⟨hr, hw⟩ := ih h
    exact ⟨.blank hc hr, hw⟩
  | case8 c cs hcomment hequals hbar hquote hblank ih =>
    have hc : isWordChar c = true := by simp_all [isWordChar]
    obtain ⟨word, hword, hs, hw, hstops⟩ := readBare_spec hc cs
    rw [hword]
    exact written_append hs hw (fun _ => hstops) ih h

/-- **The lines that give some tokens** are the ways of writing them. -/
theorem scan_eq_ok_iff : scan cs = .ok tokens ↔ Written tokens cs :=
  ⟨written_of_scan, fun ⟨hr, hw⟩ => scan_of_renders hr hw⟩

theorem Renders.subset_of_quoted (hr : Renders afterBare tokens cs) (ht : .quoted text ∈ tokens) :
    text.toList ⊆ cs := by
  induction hr with
  | done => cases ht
  | comment => cases ht
  | blank _ _ ih => exact List.subset_cons_of_subset _ (ih ht)
  | token hs _ _ ih =>
    rcases List.mem_cons.1 ht with rfl | ht
    · cases hs with
      | quoted =>
        intro c hc
        simp [hc]
    · exact List.subset_append_of_subset_right _ (ih ht)

end Token
end NormalGrammar
