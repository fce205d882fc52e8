import EbnfKit.Grammar.Basic
import EbnfKit.Grammar.Comments
import EbnfKit.Grammar.Literal
import EbnfKit.Grammar.Reply
import EbnfKit.Token.Scan

/-! # Parsing — from tokens to a grammar

    The grammar of grammars:

        File       = { Rule } ;
        Rule       = Identifier, "=", Expression, ";" ;
        Expression = Term, { "|", Term } ;
        Term       = Factor, { ",", Factor } ;
        Factor     = [ Number, "*" ], Primary, [ "-", Primary ] ;
        Primary    = Identifier | StringLiteral
                   | "(", Expression, ")" | "[", Expression, "]" | "{", Expression, "}" ;

    Parsing never fails.  A rule that cannot be read is given up with one error, the
    tokens up to the next rule are skipped, and reading goes on there.  `sections` is
    the list of these steps, each a rule or an error with the tokens that it covers. -/

namespace EbnfKit

/-- Brackets may be nested this deep. -/
def maxNesting : Nat := 128

namespace Bracket

/-- The bracket that a token opens. -/
def ofOpening? : TokenKind → Option Bracket
  | .leftParen => some .group
  | .leftBracket => some .optional
  | .leftBrace => some .repetition
  | _ => none

/-- The token that closes the bracket. -/
def closingKind : Bracket → TokenKind
  | .group => .rightParen
  | .optional => .rightBracket
  | .repetition => .rightBrace

end Bracket

namespace Parser

open Reader

/-! ## Expressions

    The readers for an expression and its parts take the reader for bracketed
    expressions as an argument, none where brackets are nested too deep already.  Tying
    the knot is recursion on the depth that is left. -/

/-- A count and its sign, if there is one. -/
def count : Reader (Option Nat) := do
  match ← accept .number with
  | none => return none
  | some t =>
      match t.text.count? with
      | none =>
          fail (.syntaxError t.span
            s!"repetition count `{String.ofList t.text}` is out of range")
      | some n =>
          let _ ← expect .repetitionSymbol
          return some n

/-- The error for a string literal without its closing quote. -/
def unterminatedLiteral (span : Span) (quote : Char) : Diagnostic :=
  .syntaxError span s!"unterminated string literal: expected closing `{quote}`"

/-- A string literal; a missing quote is noted. -/
def literal (t : Token) : Reader (Primary Span) := do
  let parts := Quoted.ofText t.text
  if !parts.closed then note (unterminatedLiteral t.span parts.quote)
  return .literal t.span parts.text parts.quote

/-- What follows an opening bracket, through the closing one. -/
def bracketed (inner : Option (Reader (Expression Span))) (bracket : Bracket)
    (opening : Span) : Reader (Primary Span) := do
  match inner with
  | none =>
      fail (.syntaxError opening
        s!"nesting too deep: more than {maxNesting} levels of brackets")
  | some expression =>
      let e ← expression
      let closing ← expect bracket.closingKind
      return .bracketed (opening.join closing.span) bracket e

/-- A name, a literal, or a bracketed expression. -/
def primary (inner : Option (Reader (Expression Span))) : Reader (Primary Span) :=
  fun stop ts =>
    match ts with
    | [] => unexpected "rule name, string literal, `(`, `[` or `\x7b`" stop []
    | t :: rest =>
        match t.kind, Bracket.ofOpening? t.kind with
        | .identifier, _ => ⟨[], [], .ok (.reference t.span t.text), rest⟩
        | .stringLiteral, _ => literal t stop rest
        | _, some bracket => bracketed inner bracket t.span stop rest
        | _, none => unexpected "rule name, string literal, `(`, `[` or `\x7b`" stop (t :: rest)

/-- An exception with its sign, if there is one. -/
def exception (inner : Option (Reader (Expression Span))) :
    Reader (Option (Primary Span)) := do
  match ← accept .exceptionSymbol with
  | none => return none
  | some _ => return some (← primary inner)

/-- A factor; its span runs from its first token to its last. -/
def factor (inner : Option (Reader (Expression Span))) : Reader (Factor Span) := do
  let start ← here
  let n ← count
  let p ← primary inner
  let e ← exception inner
  return .mk (← span start.start (e.getD p).mark.stop) n p e

/-- Factors with commas between them. -/
def term (inner : Option (Reader (Expression Span))) : Reader (Term Span) := do
  let (f, fs) ← separated .comma (factor inner)
  return .mk (f.mark.join (fs.getLast?.getD f).mark) f fs

/-- Terms with bars between them. -/
def choice (inner : Option (Reader (Expression Span))) : Reader (Expression Span) := do
  let (t, ts) ← separated .verticalBar (term inner)
  return .mk (t.mark.join (ts.getLast?.getD t).mark) t ts

/-- An expression in which brackets may be nested to the given depth. -/
def expression : Nat → Reader (Expression Span)
  | 0 => choice none
  | depth + 1 => choice (some (expression depth))

/-! ## Rules and recovery -/

/-- A rule, from its name through its semicolon. -/
def rule : Reader (Rule Span) := do
  let name ← expect .identifier
  let _ ← expect .equals
  let body ← expression maxNesting
  let semicolon ← expect .semicolon
  return ⟨name.text, name.span, body, name.span.join semicolon.span⟩

/-- A rule seems to start here: a name with an equals sign behind it. -/
def startsRule : List Token → Bool
  | t :: u :: _ => t.is .identifier && u.is .equals
  | _ => false

/-- The tokens to skip after an error: through the next semicolon, or up to the start of
    a rule or the end of the input. -/
def skipped : List Token → List Token
  | [] => []
  | t :: ts =>
      if t.is .semicolon then [t]
      else if t.is .endOfInput || startsRule (t :: ts) then []
      else t :: skipped ts

/-- An unexpected character that was skipped, unless the error points at it already. -/
def skipNote (reported : Span) (t : Token) : List Diagnostic :=
  if t.kind = .badCharacter ∧ t.span ≠ reported then
    [.syntaxError t.span s!"unexpected character `{String.ofList t.text.escaped}`"]
  else []

/-- One step through a file: a rule or the error that replaces it, with the tokens that
    the step covers. -/
structure Section where
  tokens : List Token
  /-- Problems besides the outcome. -/
  notes : List Diagnostic
  /-- Spans of nodes that are backward. -/
  backward : List Span
  outcome : Except Diagnostic (Rule Span)

/-- The tokens that a failed rule gives up on top of those it took: the first one where
    it took none, and those that `skipped` says. -/
def givenUp (ts rest : List Token) : List Token :=
  if rest.length < ts.length then skipped rest else rest.take 1 ++ skipped (rest.drop 1)

/-- The step at the front of `ts`. -/
def sectionAt (stop : Span) (ts : List Token) : Section :=
  let reply := rule stop ts
  let taken := ts.take (ts.length - reply.rest.length)
  match reply.result with
  | .ok r => ⟨taken, reply.notes, reply.backward, .ok r⟩
  | .error e =>
      let given := givenUp ts reply.rest
      { tokens := taken ++ given
        notes := reply.notes ++ given.flatMap (skipNote e.span)
        backward := reply.backward
        outcome := .error e }

/-- At most `n` steps through the tokens. -/
def sectionsWithin (stop : Span) : Nat → List Token → List Section
  | 0, _ => []
  | _ + 1, [] => []
  | n + 1, t :: ts =>
      let first := sectionAt stop (t :: ts)
      first :: sectionsWithin stop n ((t :: ts).drop first.tokens.length)

/-- The steps through a file.  Each covers a token at least, so there are at most as many
    as tokens. -/
def sections (stop : Span) (ts : List Token) : List Section :=
  sectionsWithin stop ts.length ts

/-! ## Files -/

/-- What the parser reads: tokens that are no trivia, and the end after them. -/
structure Input where
  tokens : List Token
  stop : Span

/-- The parser's view of a token list.  Where the last token that is no trivia ends the
    input, the first such end counts: no reader takes it, so nothing behind it is read.
    Otherwise all of them are void, and the input ends where the list does. -/
def Input.ofTokens (all : List Token) : Input :=
  let structural := all.filter fun t => !t.kind.isTrivia
  if structural.getLast?.any (·.is .endOfInput) then
    { tokens := structural.takeWhile fun t => !t.is .endOfInput
      stop := ((structural.find? (·.is .endOfInput)).map (·.span)).getD (.point 0) }
  else
    { tokens := structural.filter fun t => !t.is .endOfInput
      stop := .point ((all.getLast?.map (·.span.stop)).getD 0) }

/-- The steps through a token list. -/
def sectionsOf (all : List Token) : List Section :=
  let input := Input.ofTokens all
  sections input.stop input.tokens

/-- The spans of nodes and comments that are backward, which the spans of the tokens are
    to blame for. -/
def backwardSpans (all : List Token) : List Span :=
  Comments.backward all ++ (sectionsOf all).flatMap (·.backward)

/-- The rule of a step. -/
def Section.rule? (s : Section) : Option (Rule Span) :=
  match s.outcome with
  | .ok r => some r
  | .error _ => none

/-- The error of a step. -/
def Section.error? (s : Section) : Option Diagnostic :=
  match s.outcome with
  | .ok _ => none
  | .error e => some e

end Parser

/-- The grammar that a token list spells, with every syntax error in it. -/
def Grammar.ofTokens (all : List Token) : Grammar :=
  let steps := Parser.sectionsOf all
  let rules := steps.filterMap (·.rule?)
  { rules
    source := all.flatMap (·.text)
    diagnostics := Diagnostic.sort
      (Comments.unterminatedAll all ++ steps.flatMap (·.notes) ++ steps.filterMap (·.error?))
    comments := rules.filterMap fun r =>
      (Comments.leading? all r.mark.start).map fun text => (r.mark.start, text) }

/-- The grammar that a token list spells, unless a node or a comment of it would stop
    before it starts. -/
def Grammar.ofTokens? (all : List Token) : Option Grammar :=
  if (Parser.backwardSpans all).isEmpty then some (.ofTokens all) else none

/-- The grammar that a text spells, with every syntax error in it. -/
def Grammar.parse (source : Text) : Grammar :=
  .ofTokens (tokenize source)

end EbnfKit
