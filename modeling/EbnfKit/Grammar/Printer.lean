import EbnfKit.Grammar.Basic

/-! # Printing — the canonical text of trees and grammars

    Every node has one canonical text.  It depends on the structure alone, not on
    marks, and reads back as the same structure; two nodes have the same text exactly
    when they are structurally equal. -/

namespace EbnfKit

variable {α : Type}

/-- The opening bracket. -/
def Bracket.opening : Bracket → Char
  | .group => '('
  | .optional => '['
  | .repetition => '\x7b'

/-- The closing bracket. -/
def Bracket.closing : Bracket → Char
  | .group => ')'
  | .optional => ']'
  | .repetition => '\x7d'

mutual

/-- Alternatives with bars between them. -/
def Expression.render : Expression α → Text
  | .mk _ t ts => t.render ++ Term.renderOthers ts

/-- Each further alternative with a bar in front. -/
def Term.renderOthers : List (Term α) → Text
  | [] => []
  | t :: ts => [' ', '|', ' '] ++ t.render ++ Term.renderOthers ts

/-- Factors with commas between them. -/
def Term.render : Term α → Text
  | .mk _ f fs => f.render ++ Factor.renderOthers fs

/-- Each further factor with a comma in front. -/
def Factor.renderOthers : List (Factor α) → Text
  | [] => []
  | f :: fs => [',', ' '] ++ f.render ++ Factor.renderOthers fs

/-- The count, the primary and the exception. -/
def Factor.render : Factor α → Text
  | .mk _ none p e => p.render ++ Primary.renderException e
  | .mk _ (some n) p e => Text.ofNat n ++ [' ', '*', ' '] ++ p.render ++ Primary.renderException e

/-- An exception that may be missing, with its sign in front. -/
def Primary.renderException : Option (Primary α) → Text
  | none => []
  | some p => [' ', '-', ' '] ++ p.render

/-- A name, a text in its quotes, or an expression in its brackets. -/
def Primary.render : Primary α → Text
  | .reference _ n => n
  | .literal _ s q => q :: s ++ [q]
  | .bracketed _ b e => [b.opening, ' '] ++ e.render ++ [' ', b.closing]

end

/-- The rule on one line. -/
def Rule.render (r : Rule α) : Text :=
  r.name ++ [' ', '=', ' '] ++ r.body.render ++ [' ', ';']

/-- A comment on a line of its own. -/
def renderComment (comment : Text) : Text :=
  ['(', '*', ' '] ++ comment ++ [' ', '*', ')', '\n']

/-- Every rule on a line of its own, below the comment that documents it. -/
def Grammar.render (g : Grammar) : Text :=
  g.rules.flatMap fun r =>
    ((g.comment? r).map renderComment).getD [] ++ r.render ++ ['\n']

end EbnfKit
