import NormalGrammar.Normal.Stage

/-!
# Rules of one terminal or two nonterminals

A rule that is not of the form `A → a` or `A → B C` is rewritten with helpers, nonterminals that
expand to exactly one right side: a terminal `a` in it is replaced by a helper for `a`, and while
more than two symbols are left the last two are replaced by a helper for the pair.  A nonterminal
that has a single rule of the wanted form serves as a helper for its right side.  Where none is
known a new one is made, whose name is the smallest number that is not yet the name of a symbol.
The rules of new helpers follow the rule for which they were made.
-/

namespace NormalGrammar

/-- A nonterminal and the one right side that it expands to. -/
structure Helper where
  symbol : Symbol
  pattern : List Symbol
  deriving DecidableEq

namespace Helper

/-- The rule of a helper. -/
def rule (h : Helper) : Rule := .ofHead h.symbol h.pattern

end Helper

/-- The helpers that are known while rules are rewritten. -/
structure Workshop where
  /-- The helpers that can be used, one for a right side and one right side for each. -/
  known : List Helper
  /-- The helpers that were made, in order. -/
  minted : List Helper
  /-- A number below which every name is taken. -/
  next : Nat

namespace Workshop

/-- The helper for a right side. -/
def helperFor? (w : Workshop) (pattern : List Symbol) : Option Symbol :=
  (w.known.find? fun h => decide (h.pattern = pattern)).map Helper.symbol

/-- The right side that a helper stands for. -/
def patternOf? (w : Workshop) (x : Symbol) : Option (List Symbol) :=
  (w.known.find? fun h => decide (h.symbol = x)).map Helper.pattern

/-- Makes a helper known, unless its symbol or its right side belongs to another. -/
def learn (w : Workshop) (h : Helper) : Workshop :=
  if (w.patternOf? h.symbol).isSome || (w.helperFor? h.pattern).isSome then
    w
  else
    { w with known := w.known ++ [h] }

/-- The smallest number, from `n` on, that is not the name of a taken symbol, among the first
`tries + 1`. -/
def freeNumber (taken : List Symbol) : (tries n : Nat) → Nat
  | 0, n => n
  | tries + 1, n =>
    if Symbol.ofNumber n ∈ taken then freeNumber taken tries (n + 1) else n

/-- The nonterminals so far: those that the grammar declares, and the helpers made. -/
def nonterminals (g : Grammar) (w : Workshop) : List Symbol :=
  g.nonterminals ++ w.minted.map Helper.symbol

/-- The symbols whose names are taken: the nonterminals so far, and the terminals. -/
def taken (g : Grammar) (w : Workshop) : List Symbol := w.nonterminals g ++ g.terminals

/-- Makes a new helper for a right side. -/
def mint (g : Grammar) (w : Workshop) (pattern : List Symbol) : Symbol × Workshop :=
  let n := freeNumber (w.taken g) (w.taken g).length w.next
  let h : Helper := ⟨.ofNumber n, pattern⟩
  (h.symbol, { w.learn h with minted := w.minted ++ [h], next := n + 1 })

/-- The helper for a right side, which is made if there is none. -/
def supply (g : Grammar) (w : Workshop) (pattern : List Symbol) : Symbol × Workshop :=
  match w.helperFor? pattern with
  | some x => (x, w)
  | none => w.mint g pattern

/-- A right side with a helper in the place of each terminal. -/
def isolate (g : Grammar) : Workshop → List Symbol → List Symbol × Workshop
  | w, [] => ([], w)
  | w, x :: xs =>
    let (y, w) := if g.isTerminal x then w.supply g [x] else (x, w)
    let (ys, w) := isolate g w xs
    (y :: ys, w)

/-- A right side with a helper in the place of all symbols but the first, if there are more than
two. -/
def fold (g : Grammar) : Workshop → List Symbol → List Symbol × Workshop
  | w, x :: y :: z :: rest =>
    let (pair, w) := fold g w (y :: z :: rest)
    let (h, w) := w.supply g pair
    ([x, h], w)
  | w, short => (short, w)

/-- Whether a symbol has exactly one rule. -/
def hasSingleRule (g : Grammar) (x : Symbol) : Bool := (g.rulesOf x).length == 1

/-- The helpers that a grammar brings along, in order: nonterminals with a single rule, of the
wanted form. -/
def brought (g : Grammar) : List Helper :=
  g.rules.filterMap fun rule =>
    rule.head?.bind fun x =>
      if hasSingleRule g x && g.isNormal rule then some ⟨x, rule.right⟩ else none

/-- The workshop in which a grammar's rules are rewritten at first. -/
def ofGrammar (g : Grammar) : Workshop := (brought g).foldl learn ⟨[], [], 0⟩

/-- The right side to use in the place of a rule's right side. -/
def convert (g : Grammar) (w : Workshop) (rule : Rule) :
    Except NormalizationError (List Symbol × Workshop) := do
  let head ← Stage.headOf .normalForm rule
  match rule.right with
  | [x] => if g.isTerminal x then .ok ([x], w) else .error (.unsuited .normalForm rule)
  | right =>
    if right.length == 2 && right.all fun x => decide (x ∈ w.nonterminals g) then
      .ok (right, w)
    else if right.any Symbol.isEpsilon then
      .error (.unsuited .normalForm rule)
    else
      let (isolated, w) := w.isolate g right
      let (folded, w) := w.fold g isolated
      .ok (folded, if hasSingleRule g head then w.learn ⟨head, folded⟩ else w)

/-- Rewrites rules in order, each followed by the rules of the helpers that were made for it. -/
def convertAll (g : Grammar) : Workshop → List Rule → Staged (List Rule × Workshop)
  | w, [] => return ([], w)
  | w, rule :: rest => do
    let (right, after) ← (w.convert g rule : Except NormalizationError (List Symbol × Workshop))
    let made := after.minted.drop w.minted.length
    Traced.note (made.map fun h => .minted h.symbol h.pattern)
    let (rules, last) ← convertAll g after rest
    return (⟨rule.left, right⟩ :: made.map Helper.rule ++ rules, last)

end Workshop

/-- The grammar in normal form. -/
def Grammar.normalForm (g : Grammar) : Staged Grammar := do
  let (rules, w) ← Workshop.convertAll g (.ofGrammar g) g.rules
  Stage.build .normalForm g.start (w.nonterminals g) g.terminals rules

end NormalGrammar
