import NormalGrammar.Source.Error

/-!
# Tokens

A line is cut into tokens: `=`, `|`, bare words, quoted words and the empty word, which is written
as two quotes or as a bare `ε`.  Blanks separate tokens, and a `;` outside quotes starts a comment.
Blanks are the characters with the Unicode property `White_Space`.
-/

namespace NormalGrammar

/-! ## Blanks -/

namespace Text

/-- The ranges of code points of blanks, with both ends. -/
def blankRanges : List (Nat × Nat) :=
  [(0x9, 0xD), (0x20, 0x20), (0x85, 0x85), (0xA0, 0xA0), (0x1680, 0x1680), (0x2000, 0x200A),
    (0x2028, 0x2029), (0x202F, 0x202F), (0x205F, 0x205F), (0x3000, 0x3000)]

/-- Whether a character is a blank. -/
def isBlank (c : Char) : Bool :=
  blankRanges.any fun (first, last) => first ≤ c.toNat && c.toNat ≤ last

theorem ne_of_isBlank {c d : Char} (hc : isBlank c = true) (hd : isBlank d = false) : c ≠ d := by
  rintro rfl
  rw [hc] at hd
  cases hd

end Text

/-! ## Tokens -/

/-- A token of a line. -/
inductive Token where
  | equals
  | bar
  | epsilon
  | bare (name : String)
  | quoted (text : String)
  deriving DecidableEq

namespace Token

/-- Whether a bare word goes on with a character. -/
def isWordChar (c : Char) : Bool :=
  !Text.isBlank c && !(c == '=' || c == '|' || c == '"' || c == ';')

/-- Reads a quoted word, whose first character is taken to be the opening quote, and returns what
follows its closing quote. -/
def readQuoted (cs : List Char) : Except SourceError Token × List Char :=
  let body := cs.tail
  match body.dropWhile (· != '"') with
  | [] => (.error .openQuote, [])
  | _ :: rest =>
    let text := body.takeWhile (· != '"')
    (.ok (if text = [] then .epsilon else .quoted (String.ofList text)), rest)

/-- Reads a bare word, and returns what follows it. -/
def readBare (cs : List Char) : Token × List Char :=
  let name := String.ofList (cs.takeWhile isWordChar)
  (if name = Symbol.epsilon.name then .epsilon else .bare name, cs.dropWhile isWordChar)

theorem length_dropWhile_le (p : Char → Bool) (cs : List Char) :
    (cs.dropWhile p).length ≤ cs.length :=
  (List.dropWhile_sublist p).length_le

/-- Reading a quoted word uses up its opening quote. -/
theorem length_readQuoted_lt (c : Char) (cs : List Char) :
    (readQuoted (c :: cs)).2.length < (c :: cs).length := by
  have h := length_dropWhile_le (· != '"') cs
  unfold readQuoted
  simp only [List.tail_cons, List.length_cons]
  split
  · simp
  · rename_i heq
    rw [heq, List.length_cons] at h
    simp only
    omega

/-- Reading a bare word uses up its first character. -/
theorem length_readBare_lt {c : Char} (hc : isWordChar c = true) (cs : List Char) :
    (readBare (c :: cs)).2.length < (c :: cs).length := by
  have h := length_dropWhile_le isWordChar cs
  simp only [readBare, List.dropWhile_cons, hc, if_true, List.length_cons]
  omega

/-- The tokens of a line. -/
def scan : List Char → Except SourceError (List Token)
  | [] => .ok []
  | c :: cs =>
    if c == ';' then
      .ok []
    else if c == '=' then
      (scan cs).map (.equals :: ·)
    else if c == '|' then
      (scan cs).map (.bar :: ·)
    else if c == '"' then
      match (readQuoted (c :: cs)).1 with
      | .error e => .error e
      | .ok token => (scan (readQuoted (c :: cs)).2).map (token :: ·)
    else if Text.isBlank c then
      scan cs
    else
      (scan (readBare (c :: cs)).2).map ((readBare (c :: cs)).1 :: ·)
termination_by cs => cs.length
decreasing_by
  · simp
  · simp
  · exact length_readQuoted_lt c cs
  · simp
  · exact length_readBare_lt (by simp_all [isWordChar]) cs

end Token

end NormalGrammar
