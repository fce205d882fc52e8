import EbnfKit.Grammar.References

/-! # Base cases — recursion that never ends

    A rule has a base case when one of its alternatives can finish without going
    through the rule again.  An alternative finishes when all its factors do: literals,
    options and repetitions always can, a group when one of its alternatives can, and
    a name when it is another rule whose definition has such an alternative.  Counts
    and exceptions do not matter.

    The search remembers the names it has looked up and takes one that it meets again
    to finish, as it does a name without a definition.  So it ends, though it may
    overlook a cycle; what it reports is true. -/

namespace EbnfKit.Check

/-- The answer of a search and the names looked up so far. -/
abbrev Search := Bool × List Text

/-! ## Inside a body

    `lookup` answers for a name.  The search goes from left to right and stops at the
    first alternative that finishes and at the first factor that does not. -/

mutual

/-- Some alternative finishes. -/
def expressionFinishes (lookup : Text → List Text → Search) :
    Expression Span → List Text → Search
  | .mk _ t ts, seen =>
      match termFinishes lookup t seen with
      | (true, seen) => (true, seen)
      | (false, seen) => anyTermFinishes lookup ts seen

/-- Some of the terms finishes. -/
def anyTermFinishes (lookup : Text → List Text → Search) :
    List (Term Span) → List Text → Search
  | [], seen => (false, seen)
  | t :: ts, seen =>
      match termFinishes lookup t seen with
      | (true, seen) => (true, seen)
      | (false, seen) => anyTermFinishes lookup ts seen

/-- Every factor finishes. -/
def termFinishes (lookup : Text → List Text → Search) : Term Span → List Text → Search
  | .mk _ f fs, seen =>
      match factorFinishes lookup f seen with
      | (true, seen) => allFactorsFinish lookup fs seen
      | (false, seen) => (false, seen)

/-- Each of the factors finishes. -/
def allFactorsFinish (lookup : Text → List Text → Search) :
    List (Factor Span) → List Text → Search
  | [], seen => (true, seen)
  | f :: fs, seen =>
      match factorFinishes lookup f seen with
      | (true, seen) => allFactorsFinish lookup fs seen
      | (false, seen) => (false, seen)

/-- The primary finishes; the rest of the factor does not matter. -/
def factorFinishes (lookup : Text → List Text → Search) : Factor Span → List Text → Search
  | .mk _ _ p _, seen => primaryFinishes lookup p seen

/-- The primary finishes. -/
def primaryFinishes (lookup : Text → List Text → Search) : Primary Span → List Text → Search
  | .reference _ name, seen => lookup name seen
  | .bracketed _ .group e, seen => expressionFinishes lookup e seen
  | .bracketed _ _ _, seen => (true, seen)
  | .literal _ _ _, seen => (true, seen)

end

/-! ## From rule to rule -/

/-- A name finishes without `target`.  Every definition entered is one more name looked
    up, so `fuel` above the number of rules never runs out. -/
def nameFinishes (g : Grammar) (target : Text) : Nat → Text → List Text → Search
  | 0, _, seen => (true, seen)
  | fuel + 1, name, seen =>
      if name = target then (false, seen)
      else if seen.contains name then (true, seen)
      else
        match g.definition? name with
        | some r => expressionFinishes (nameFinishes g target fuel) r.body (name :: seen)
        | none => (true, name :: seen)

/-- One alternative of a rule finishes without the rule. -/
def alternativeFinishes (g : Grammar) (target : Text) (t : Term Span) : Bool :=
  (termFinishes (nameFinishes g target (g.rules.length + 1)) t []).1

/-- Some alternative of the rule finishes without it; each is searched afresh. -/
def hasBaseCase (g : Grammar) (r : Rule Span) : Bool :=
  r.body.alternatives.any (alternativeFinishes g r.name)

/-- The warning for a rule without a base case. -/
def endlessRule (r : Rule Span) : Diagnostic :=
  let name := String.ofList r.name
  ⟨.recursiveWithoutBaseCase, r.nameMark,
    s!"every alternative of rule `{name}` recurses back into `{name}`; it has no base case"⟩

/-- A warning at the name of every definition without a base case. -/
def endlessRules (g : Grammar) : List Diagnostic :=
  (g.definitions.filter fun r => !hasBaseCase g r).map endlessRule

end EbnfKit.Check
