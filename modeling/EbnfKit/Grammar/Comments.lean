import EbnfKit.Diagnostic
import EbnfKit.Token.Basic

/-! # Comments — the trivia that grammars keep

    Comments are no part of a rule, but two things about them matter: one that is
    never closed is a syntax error, and one that stands directly above a rule
    documents it. -/

namespace EbnfKit.Comments

/-- Where a comment that ran on to `stop` ends, unless `following` closes it. -/
def openEnd? (stop : Nat) (following : List Token) : Option Nat :=
  match following with
  | [] => some stop
  | t :: ts =>
      match t.kind with
      | .comment => openEnd? t.span.stop ts
      | .commentEnd => none
      | _ => some stop

/-- The error for a comment that is never closed. -/
def unterminated (span : Span) : Diagnostic :=
  .syntaxError span "unterminated comment: expected `*)` before end of input"

/-- An error for each comment that is never closed. -/
def unterminatedAll : List Token → List Diagnostic
  | [] => []
  | t :: ts =>
      if t.kind = .commentStart then
        match openEnd? t.span.stop ts with
        | some stop => unterminated ⟨t.span.start, stop⟩ :: unterminatedAll ts
        | none => unterminatedAll ts
      else unterminatedAll ts

/-- The spans of comments that are never closed, as far as they are backward. -/
def backward (tokens : List Token) : List Span :=
  ((unterminatedAll tokens).map (·.span)).filter Span.isBackward

/-- The comment that ends directly above, reading backwards: `preceding` is what comes
    before, the nearest token first.  White space in between may hold one line break but
    not two, so a blank line separates. -/
def above? : List Token → Option Text
  | [] => none
  | t :: ts =>
      match t.kind with
      | .whitespace => if t.text.count '\n' ≤ 1 then above? ts else none
      | .commentEnd =>
          match ts with
          | [] => none
          | body :: _ => if body.kind = .comment then some body.text.trim else some []
      | _ => none

/-- What comes before the token that starts at `offset`, the nearest token first. -/
def preceding (tokens : List Token) (offset : Nat) : List Token :=
  (tokens.reverse.dropWhile fun t => t.span.start != offset).tail

/-- The comment directly above the rule that starts at `offset`. -/
def leading? (tokens : List Token) (offset : Nat) : Option Text :=
  above? (preceding tokens offset)

end EbnfKit.Comments
