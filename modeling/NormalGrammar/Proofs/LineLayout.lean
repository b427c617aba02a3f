import NormalGrammar.Proofs.OpenQuotes

/-!
# Blanks and comments in a line

What may be put into a line without changing its tokens?  Blanks may, but not everywhere: inside quotes
they are part of a word, and inside a bare word they part it.  What can be told from the tokens alone is
where a line can be parted, namely where the tokens of both parts are those of the line.

* After a line in which no comment starts, every line that may stand after a bare word goes on, and a
  comment swallows every line (`Renders.append`).
* So blanks may stand wherever a line can be parted, a comment may stand at its end (`Respaced.written`),
  and a blank at its end may come and go (`written_append_blank_iff`).
-/

namespace NormalGrammar
namespace Token

variable {c : Char} {cs line line' blanks : List Char} {tokens tokens' : List Token}
  {isBare : Bool}

/-- The steps that change a line and not its tokens: a comment is put at its end, or blanks are put where
the line can be parted into its tokens. -/
inductive Respaced : List Char → List Char → Prop
  | comment {line : List Char} (text : List Char) :
      '\n' ∉ text → Respaced line (line ++ ';' :: text)
  | blanks {first blanks second : List Char} {before after : List Token} :
      (∀ c ∈ blanks, Text.isBlank c = true ∧ c ≠ '\n') →
      Written before first → Written after second → Written (before ++ after) (first ++ second) →
      Respaced (first ++ second) (first ++ (blanks ++ second))

/-! ## Lines after lines -/

theorem Written.unique (h : Written tokens cs) (h' : Written tokens' cs) : tokens = tokens' := by
  have hscan := scan_of_renders h.1 h.2
  rw [scan_of_renders h'.1 h'.2] at hscan
  exact (Except.ok.inj hscan).symm

/-- After a line comes what may stand after a bare word, unless the line ends with a comment, which
goes on with everything. -/
theorem Renders.append (hr : Renders isBare tokens cs) :
    (∀ rest, Renders isBare tokens (cs ++ rest)) ∨
      ∀ later rest, Renders true later rest → Renders isBare (tokens ++ later) (cs ++ rest) := by
  induction hr with
  | done isBare => exact .inr fun later rest hrest => hrest.of_afterBare isBare
  | comment isBare cs => exact .inl fun rest => .comment isBare (cs ++ rest)
  | blank hc _ ih =>
    rcases ih with hall | hlater
    · exact .inl fun rest => .blank hc (hall rest)
    · exact .inr fun later rest hrest => .blank hc (hlater later rest hrest)
  | token hs hgap _ ih =>
    simp only [List.append_assoc, List.cons_append]
    rcases ih with hall | hlater
    · exact .inl fun rest => .token hs hgap (hall rest)
    · exact .inr fun later rest hrest => .token hs hgap (hlater later rest hrest)

theorem Renders.blanks_append (hblanks : ∀ c ∈ blanks, Text.isBlank c = true) (hne : blanks ≠ [])
    (hr : Renders false tokens cs) : Renders isBare tokens (blanks ++ cs) := by
  induction blanks generalizing isBare with
  | nil => exact absurd rfl hne
  | cons c blanks ih =>
    obtain ⟨hc, hblanks⟩ := List.forall_mem_cons.1 hblanks
    by_cases hnil : blanks = []
    · rw [hnil]
      exact .blank hc hr
    · exact .blank hc (ih hblanks hnil)

/-! ## Comments and blanks -/

theorem Written.append_comment (h : Written tokens cs) (rest : List Char) :
    Written tokens (cs ++ ';' :: rest) := by
  refine ⟨?_, h.2⟩
  rcases h.1.append with hall | hlater
  · exact hall _
  · have hcomment := hlater [] _ (.comment true rest)
    rwa [List.append_nil] at hcomment

/-- **A step keeps the tokens of a line.** -/
theorem Respaced.written (hstep : Respaced line line') (h : Written tokens line) :
    Written tokens line' := by
  cases hstep with
  | comment text _ => exact h.append_comment text
  | @blanks first blanks second before after hblanks hfirst hsecond hwhole =>
    by_cases hnil : blanks = []
    · rw [hnil]
      exact h
    · obtain rfl := h.unique hwhole
      refine ⟨?_, h.2⟩
      rcases hfirst.1.append with hall | hlater
      · -- the second part is part of a comment, so it has no tokens
        have hbefore : Written before (first ++ second) := ⟨hall _, hfirst.2⟩
        rw [hwhole.unique hbefore]
        exact hall _
      · exact hlater _ _
          (hsecond.1.blanks_append (fun c hc => (hblanks c hc).1) hnil)

theorem Respaced.lineFeed_not_mem (hstep : Respaced line line') (h : '\n' ∉ line) :
    '\n' ∉ line' := by
  cases hstep with
  | comment text htext => simp [h, htext]
  | @blanks first blanks second before after hblanks =>
    have hfeed : '\n' ∉ blanks := fun hmem => (hblanks '\n' hmem).2 rfl
    rw [List.mem_append, not_or] at h
    simp [h, hfeed]

/-- A character that is no quote and starts no comment does not matter at the end of a scan. -/
theorem endsInQuotes_append_singleton (hcomment : c ≠ ';') (hquote : c ≠ '"') (inside : Bool)
    (cs : List Char) : endsInQuotes inside (cs ++ [c]) = endsInQuotes inside cs := by
  have hc : (c == '"') = false := by simpa using hquote
  induction cs generalizing inside with
  | nil => cases inside <;> simp [endsInQuotes, hcomment, hc, hquote]
  | cons d cs ih => cases inside <;> simp [endsInQuotes, ih]

/-- **A blank at the end of a line** may come and go. -/
theorem written_append_blank_iff (hc : Text.isBlank c = true) :
    Written tokens (cs ++ [c]) ↔ Written tokens cs := by
  have hblank : ∀ {tokens}, Written tokens cs → Written tokens (cs ++ [c]) := by
    intro tokens h
    refine ⟨?_, h.2⟩
    rcases h.1.append with hall | hlater
    · exact hall _
    · have hlast := hlater [] _ (.blank hc (.done false))
      rwa [List.append_nil] at hlast
  refine ⟨?_, hblank⟩
  intro h
  cases hscan : scan cs with
  | ok tokens' =>
    have hwritten := scan_eq_ok_iff.1 hscan
    rwa [h.unique (hblank hwritten)]
  | error e =>
    -- a quote that is open before the blank is open after it
    have hcomment : c ≠ ';' := Text.ne_of_isBlank hc (by decide)
    have hquote : c ≠ '"' := Text.ne_of_isBlank hc (by decide)
    have hopen := (scan_eq_error_iff.1 hscan).1
    rw [← endsInQuotes_append_singleton hcomment hquote] at hopen
    have herror := scan_eq_error_iff.2 ⟨hopen, rfl⟩
    rw [scan_of_renders h.1 h.2] at herror
    cases herror

end Token
end NormalGrammar
