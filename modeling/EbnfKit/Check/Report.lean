import EbnfKit.Check.BaseCase
import EbnfKit.Check.Lead
import EbnfKit.Check.Parentheses
import EbnfKit.Check.Pass
import EbnfKit.Check.References
import EbnfKit.Check.Repetition

/-! # Reports — all that is wrong with a grammar

    Checks are independent of each other: a selection finds what the checks in it
    find.  A report adds the syntax errors, sorts everything by place, and counts. -/

namespace EbnfKit

/-- What one check finds, in the order in which it finds it. -/
def Pass.run (g : Grammar) (startRule : Option Text) : Pass → List Diagnostic
  | undefinedRule => Check.undefinedRules g
  | duplicateRule => Check.duplicateRules g
  | unreachableRule => Check.unreachableRules g startRule
  | recursion => Check.endlessRules g
  | ambiguousPrefix => Check.ambiguousExpressions g
  | redundantParentheses => Check.redundantGroups g
  | simplifiableRepetition => Check.repeatedRuns g

/-- What all checks find, sorted; syntax errors are not repeated. -/
def Grammar.analyze (g : Grammar) : List Diagnostic :=
  Diagnostic.sort (Pass.all.flatMap (Pass.run g none))

/-- Diagnostics in order, and which checks ran. -/
structure Report where
  diagnostics : List Diagnostic
  passesRun : List Pass
deriving DecidableEq

namespace Report

/-- A report on the given diagnostics. -/
def of (diagnostics : List Diagnostic) (passesRun : List Pass) : Report :=
  ⟨Diagnostic.sort diagnostics, passesRun⟩

/-- Number of errors. -/
def errors (r : Report) : Nat :=
  r.diagnostics.countP (·.isError)

/-- Number of diagnostics that are no errors. -/
def warnings (r : Report) : Nat :=
  r.diagnostics.length - r.errors

/-- There is an error. -/
def hasErrors (r : Report) : Bool :=
  r.errors > 0

/-- The diagnostics of one kind. -/
def ofProblem (r : Report) (problem : Problem) : List Diagnostic :=
  r.diagnostics.filter fun d => d.problem == problem

end Report

/-- The syntax errors and what the selected checks find. -/
def Grammar.check (g : Grammar) (config : Config) : Report :=
  .of (g.diagnostics ++ config.passes.flatMap (Pass.run g config.startRule)) config.passes

end EbnfKit
