import Mathlib.Data.List.TakeWhile
import NormalGrammar.Proofs.Scanning

/-!
# Lines that cannot be read

What is written is read back, and only what can be written is ever read: that is shown for lines whose
tokens are given.  This file asks which lines have no tokens at all.  The answer is a scan that knows
nothing of tokens: it only counts quotes, and stops where a comment starts (`endsInQuotes`).

* No token leaves the scan inside quotes, whatever characters it is made of (`endsInQuotes_spelled`).
* So a line is refused just when the scan ends inside quotes, and the open quote is all that can ever
  be wrong with its tokens (`scan_eq_error_iff`).
* Together with the reading of what is written this settles every line (`scan_inverts_writing`).
-/

namespace NormalGrammar
namespace Token

variable {c : Char} {cs word : List Char} {token : Token} {isBare : Bool} {e : SourceError}

/-! ## What the scan passes over -/

theorem endsInQuotes_cons (hcomment : c ≠ ';') (hquote : c ≠ '"') (cs : List Char) :
    endsInQuotes false (c :: cs) = endsInQuotes false cs := by
  have hc : (c == '"') = false := by simpa using hquote
  simp [endsInQuotes, hcomment, hc]

theorem endsInQuotes_quote (cs : List Char) :
    endsInQuotes false ('"' :: cs) = endsInQuotes true cs := by
  simp [endsInQuotes]

/-- Inside quotes, a text without quotes goes by. -/
theorem endsInQuotes_inside (htext : '"' ∉ cs) (rest : List Char) :
    endsInQuotes true (cs ++ rest) = endsInQuotes true rest := by
  induction cs with
  | nil => rfl
  | cons c cs ih =>
    rw [List.mem_cons, not_or] at htext
    have hc : (c != '"') = true := by simpa using Ne.symm htext.1
    rw [List.cons_append, endsInQuotes, hc]
    exact ih htext.2

theorem endsInQuotes_word (hword : ∀ c ∈ word, isWordChar c = true) (rest : List Char) :
    endsInQuotes false (word ++ rest) = endsInQuotes false rest := by
  induction word with
  | nil => rfl
  | cons c word ih =>
    obtain ⟨hc, hword⟩ := List.forall_mem_cons.1 hword
    have hne : ∀ d, isWordChar d = false → c ≠ d := fun d hd =>
      ne_of_apply_ne isWordChar (by simp [hc, hd])
    rw [List.cons_append, endsInQuotes_cons (hne ';' (by decide)) (hne '"' (by decide))]
    exact ih hword

/-- **A token goes by**, whatever it looks like: its quotes are closed where it ends. -/
theorem endsInQuotes_spelled (hs : Spells token word isBare) (hw : token.IsWritable)
    (rest : List Char) : endsInQuotes false (word ++ rest) = endsInQuotes false rest := by
  cases hs with
  | equals | bar => exact endsInQuotes_cons (by decide) (by decide) rest
  | bare name => exact endsInQuotes_word hw.2.2 rest
  | quoted text =>
    rw [List.append_assoc, List.cons_append, endsInQuotes_quote, endsInQuotes_inside hw.2]
    rfl
  | twoQuotes => rfl
  | bareEpsilon =>
    have hε : Symbol.epsilon.name.toList = ['ε'] := by decide
    rw [hε]
    exact endsInQuotes_cons (by decide) (by decide) rest

/-! ## What is refused -/

theorem map_cons_eq_error_iff {r : Except SourceError (List Token)} :
    r.map (token :: ·) = .error e ↔ r = .error e := by
  cases r <;> simp [Except.map]

theorem readQuoted_eq_error (h : (readQuoted ('"' :: cs)).1 = .error e) :
    '"' ∉ cs ∧ e = .openQuote := by
  rcases exists_quoted cs with hnil | ⟨text, rest, htext, rfl⟩
  · constructor
    · intro hmem
      simpa using List.dropWhile_eq_nil_iff.1 hnil _ hmem
    · simpa [readQuoted, hnil, eq_comm] using h
  · rw [← List.cons_append, readQuoted_append htext] at h
    cases h

/-- **A line is refused** just when a quote is left open. -/
theorem scan_eq_error_iff : scan cs = .error e ↔ endsInQuotes false cs = true ∧ e = .openQuote := by
  fun_induction scan cs with
  | case1 => simp [endsInQuotes]
  | case2 c cs hc =>
    obtain rfl : c = ';' := by simpa using hc
    simp [endsInQuotes]
  | case3 c cs _ hc ih =>
    obtain rfl : c = '=' := by simpa using hc
    rw [map_cons_eq_error_iff, ih, endsInQuotes_cons (by decide) (by decide)]
  | case4 c cs _ _ hc ih =>
    obtain rfl : c = '|' := by simpa using hc
    rw [map_cons_eq_error_iff, ih, endsInQuotes_cons (by decide) (by decide)]
  | case5 c cs _ _ _ hc e' hread =>
    obtain rfl : c = '"' := by simpa using hc
    obtain ⟨hopen, rfl⟩ := readQuoted_eq_error hread
    have hends := endsInQuotes_inside hopen []
    rw [List.append_nil] at hends
    rw [endsInQuotes_quote, hends]
    simp [endsInQuotes, eq_comm]
  | case6 c cs _ _ _ hc token hread ih =>
    obtain rfl : c = '"' := by simpa using hc
    obtain ⟨word, hword, hs, hw⟩ := readQuoted_spec hread
    have hpast := endsInQuotes_spelled hs hw (readQuoted ('"' :: cs)).2
    rw [← hword] at hpast
    rw [map_cons_eq_error_iff, ih, hpast]
  | case7 c cs hcomment _ _ hquote _ ih =>
    rw [ih, endsInQuotes_cons (by simpa using hcomment) (by simpa using hquote)]
  | case8 c cs hcomment hequals hbar hquote hblank ih =>
    have hc : isWordChar c = true := by simp_all [isWordChar]
    obtain ⟨word, hword, hs, hw, -⟩ := readBare_spec hc cs
    have hpast := endsInQuotes_spelled hs hw (readBare (c :: cs)).2
    rw [← hword] at hpast
    rw [map_cons_eq_error_iff, ih, hpast]

-- the comment is only text here, since the quote before it is open
example : scan "A = \"b ; c".toList = .error .openQuote :=
  scan_eq_error_iff.2 ⟨by decide, rfl⟩

/-- **Reading undoes writing**, and refuses open quotes only.  Tokens that can be written are read from
every way of writing them.  What is read from a line can be written, and is written there.  A line is
refused just when a quote is left open, and it is refused for that. -/
theorem scan_inverts_writing :
    (∀ (tokens : List Token) (cs : List Char), (∀ token ∈ tokens, token.IsWritable) →
      Renders false tokens cs → scan cs = .ok tokens) ∧
      (∀ (cs : List Char) (tokens : List Token), scan cs = .ok tokens →
        (∀ token ∈ tokens, token.IsWritable) ∧ Renders false tokens cs) ∧
      ∀ (cs : List Char) (e : SourceError),
        scan cs = .error e ↔ endsInQuotes false cs = true ∧ e = .openQuote := by
  refine ⟨?_, ?_, fun cs e => scan_eq_error_iff⟩
  · intro tokens cs hw hr
    exact scan_of_renders hr hw
  · intro cs tokens h
    obtain ⟨hr, hw⟩ := written_of_scan h
    exact ⟨hw, hr⟩

/-- Tokens of every kind, with a comment and a bar in quotes and the empty word twice. -/
def crowded : List Token :=
  [.bare "A", .equals, .epsilon, .quoted "; |", .epsilon, .bare "B", .bar, .bare "C"]

/-- `crowded` is read from a line with as few blanks as there can be and a quote in its comment, and
so it can be written; the line is refused as soon as the quotes around the bar are not closed. -/
theorem crowded_inverts_writing :
    (∀ token ∈ crowded, token.IsWritable) ∧
      Renders false crowded "A=ε\"; |\"\"\"B|\tC;\"".toList ∧
      scan "A=ε\"; |\"\"\"B|\tC;\"".toList = .ok crowded ∧
      scan "A=ε\"; |B|\tC;".toList = .error .openQuote := by
  obtain ⟨hread, hwritten, hrefused⟩ := scan_inverts_writing
  have hwritable : ∀ token ∈ crowded, token.IsWritable := by decide
  have hrenders : Renders false crowded "A=ε\"; |\"\"\"B|\tC;\"".toList :=
    .token (.bare "A") rfl <| .token .equals rfl <| .token .bareEpsilon rfl <|
      .token (.quoted "; |") rfl <| .token .twoQuotes rfl <| .token (.bare "B") rfl <|
        .token .bar rfl <| .blank (by decide) <| .token (.bare "C") rfl <| .comment _ _
  have hscan := hread crowded _ hwritable hrenders
  exact ⟨(hwritten _ _ hscan).1, (hwritten _ _ hscan).2, hscan, (hrefused _ _).2 ⟨by decide, rfl⟩⟩

end Token
end NormalGrammar
