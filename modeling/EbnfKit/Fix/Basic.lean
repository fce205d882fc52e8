import EbnfKit.Diagnostic
import EbnfKit.Text.Basic

/-! # Fixes — replacements of pieces of a text

    A fix replaces the text under one span.  Fixes never touch a tree: the result is
    read again. -/

namespace EbnfKit

/-- Put `replacement` where `span` is. -/
structure Fix where
  title : String
  span : Span
  replacement : Text
deriving DecidableEq

/-- Why a fix cannot be found or fixes cannot be applied. -/
inductive FixError
  /-- The diagnostic points at nothing of its kind. -/
  | stale (problem : Problem) (span : Span)
  /-- Two fixes get in each other's way. -/
  | overlap (first second : Span)
  /-- A fix reaches past the end or cuts a character in two. -/
  | outOfBounds (span : Span) (size : Nat)
  /-- The grammar is broken, and what is missing from it looks like a problem. -/
  | syntaxErrors (count : Nat)
  /-- The span of a fix stops before it starts. -/
  | backwards (span : Span)
deriving DecidableEq

/-- The error in words. -/
def FixError.message : FixError → String
  | stale problem span =>
      s!"{problem.code} diagnostic at {span.display} does not match any node of this grammar"
  | overlap first second => s!"fixes at {first.display} and {second.display} overlap"
  | outOfBounds span size =>
      s!"fix span {span.display} is outside the {size}-byte source or splits a character"
  | syntaxErrors count =>
      s!"grammar has {count} syntax error(s); no fixes are offered until they are resolved"
  | backwards span => s!"fix span {span.display} stops before it starts"

end EbnfKit
