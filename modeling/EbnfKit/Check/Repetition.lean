import EbnfKit.Grammar.Printer

/-! # Repetition — equal factors side by side

    Neighbouring factors of a term with the same canonical text form a run.  A run of
    two or more can be written once with a count. -/

namespace EbnfKit

/-- Equal neighbours: the first factor, how many there are, and where. -/
structure Run where
  factor : Factor Span
  count : Nat
  span : Span

namespace Run

/-- The list cut into blocks of neighbours with the same canonical text, each block as
    its first factor and the others. -/
def blocks : List (Factor Span) → List (Factor Span × List (Factor Span))
  | [] => []
  | f :: fs =>
      match blocks fs with
      | [] => [(f, [])]
      | (g, gs) :: rest =>
          if f.render = g.render then (f, g :: gs) :: rest else (f, []) :: (g, gs) :: rest

/-- A block as a run, if it is long enough. -/
def ofBlock? (block : Factor Span × List (Factor Span)) : Option Run :=
  match block.2.getLast? with
  | none => none
  | some last => some ⟨block.1, block.2.length + 1, block.1.mark.join last.mark⟩

/-- The runs of a term, from left to right; none can be made longer. -/
def ofTerm (t : Term Span) : List Run :=
  (blocks t.factors).filterMap ofBlock?

/-- The run written once with a count, in a group where the factor has a count or an
    exception of its own. -/
def counted (r : Run) : Text :=
  if r.factor.isPlain then Text.ofNat r.count ++ [' ', '*', ' '] ++ r.factor.render
  else Text.ofNat r.count ++ [' ', '*', ' ', '(', ' '] ++ r.factor.render ++ [' ', ')']

end Run

/-- The runs of all terms, in source order. -/
def Grammar.repeatedRuns (g : Grammar) : List Run :=
  (g.nodes.filterMap (·.term?)).flatMap Run.ofTerm

namespace Check

/-- The warning for a run. -/
def repeatedRun (r : Run) : Diagnostic :=
  let once := String.ofList r.factor.render
  let counted := String.ofList r.counted
  ⟨.simplifiableRepetition, r.span,
    s!"`{once}` is repeated {r.count} times; write it once as `{counted}`"⟩

/-- A warning for every run. -/
def repeatedRuns (g : Grammar) : List Diagnostic :=
  g.repeatedRuns.map repeatedRun

end Check

end EbnfKit
