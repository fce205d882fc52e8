import EbnfKit.Sorting
import EbnfKit.Text.Span

/-! # Diagnostics — what is wrong with a grammar, and where

    A diagnostic is plain data: the kind of problem, the span it points at, and a
    message.  How severe it is follows from its kind: broken syntax and broken
    references are errors, all else is advice. -/

namespace EbnfKit

/-- How much a problem matters. -/
inductive Severity
  | error
  | warning
deriving DecidableEq

/-- The word that a listing shows. -/
def Severity.display : Severity → String
  | error => "error"
  | warning => "warning"

/-- The capitalised word of structured output. -/
def Severity.label : Severity → String
  | error => "Error"
  | warning => "Warning"

/-- The kinds of problem, in the order in which ties are sorted. -/
inductive Problem
  | syntaxError
  | undefinedRule
  | duplicateRule
  | unreachableRule
  | recursiveWithoutBaseCase
  | ambiguousPrefix
  | redundantParentheses
  | simplifiableRepetition
deriving DecidableEq

namespace Problem

/-- Every kind, in order. -/
def all : List Problem :=
  [syntaxError, undefinedRule, duplicateRule, unreachableRule, recursiveWithoutBaseCase,
    ambiguousPrefix, redundantParentheses, simplifiableRepetition]

/-- The place of the kind in the order. -/
def rank : Problem → Nat
  | syntaxError => 0
  | undefinedRule => 1
  | duplicateRule => 2
  | unreachableRule => 3
  | recursiveWithoutBaseCase => 4
  | ambiguousPrefix => 5
  | redundantParentheses => 6
  | simplifiableRepetition => 7

/-- The code of the kind in listings. -/
def code : Problem → String
  | syntaxError => "syntax-error"
  | undefinedRule => "undefined-rule"
  | duplicateRule => "duplicate-rule"
  | unreachableRule => "unreachable-rule"
  | recursiveWithoutBaseCase => "recursive-without-base-case"
  | ambiguousPrefix => "ambiguous-prefix"
  | redundantParentheses => "redundant-parentheses"
  | simplifiableRepetition => "simplifiable-repetition"

/-- The name of the kind in structured output. -/
def label : Problem → String
  | syntaxError => "SyntaxError"
  | undefinedRule => "UndefinedRule"
  | duplicateRule => "DuplicateRule"
  | unreachableRule => "UnreachableRule"
  | recursiveWithoutBaseCase => "RecursiveWithoutBaseCase"
  | ambiguousPrefix => "AmbiguousPrefix"
  | redundantParentheses => "RedundantParentheses"
  | simplifiableRepetition => "SimplifiableRepetition"

/-- The kind with the given code. -/
def ofCode? (text : String) : Option Problem :=
  all.find? fun problem => problem.code == text

/-- Broken syntax and broken references are errors. -/
def severity : Problem → Severity
  | syntaxError | undefinedRule | duplicateRule => .error
  | _ => .warning

end Problem

/-- One problem: its kind, where it is, and what to say about it. -/
structure Diagnostic where
  problem : Problem
  span : Span
  message : String
deriving DecidableEq

namespace Diagnostic

/-- A broken piece of syntax. -/
def syntaxError (span : Span) (message : String) : Diagnostic :=
  ⟨.syntaxError, span, message⟩

/-- How severe the problem is. -/
def severity (d : Diagnostic) : Severity :=
  d.problem.severity

/-- The problem is an error, not advice. -/
def isError (d : Diagnostic) : Bool :=
  d.severity == .error

/-- The diagnostic with its code and span, on one line. -/
def display (d : Diagnostic) : String :=
  s!"{d.severity.display}[{d.problem.code}] at {d.span.display}: {d.message}"

/-- `a` comes no later than `b`: by start, then by stop, then by kind. -/
def le (a b : Diagnostic) : Bool :=
  a.span.before b.span || (a.span == b.span && a.problem.rank ≤ b.problem.rank)

/-- Diagnostics by place and kind; those alike keep their order. -/
def sort (ds : List Diagnostic) : List Diagnostic :=
  stableSort le ds

end Diagnostic

end EbnfKit
