import EbnfKit.Check.Report
import EbnfKit.Grammar.Printer
import EbnfKit.Json.Value
import EbnfKit.Text.Escapes
import EbnfKit.Token.Basic

/-! # Listings — tokens, trees and reports for people and programs

    The text forms are tables and outlines, the structured forms JSON values. -/

namespace EbnfKit.CommandLine

/-! ## For people -/

/-- `text` filled up with blanks to `width` characters. -/
def padded (width : Nat) (text : Text) : Text :=
  text ++ List.replicate (width - text.length) ' '

/-- A token on a line: where it starts, its kind, and its text in quotes. -/
def tokenLine (lines : LineIndex) (source : Text) (t : Token) : Text :=
  padded 8 (lines.position source t.span.start).display.toList ++ ' ' ::
    padded 16 t.kind.label.toList ++ ' ' :: t.text.quoted ++ ['\n']

/-- A token on each line. -/
def tokenTable (source : Text) (tokens : List Token) : Text :=
  tokens.flatMap (tokenLine (.ofText source) source)

/-- A diagnostic with file, line and column in front. -/
def diagnosticLine (file : Text) (g : Grammar) (d : Diagnostic) : String :=
  let place := (g.position d.span.start).display
  s!"{String.ofList file}:{place}: {d.severity.display}[{d.problem.code}]: {d.message}"

/-- A line of an outline. -/
def outlineLine (depth : Nat) (text : Text) : Text :=
  List.replicate (2 * depth) ' ' ++ text ++ ['\n']

/-- The word for a bracket. -/
def bracketWord : Bracket → String
  | .group => "group"
  | .optional => "optional"
  | .repetition => "repetition"

variable {α : Type}

mutual

/-- The alternatives of an expression; a single one stands for itself. -/
def outlineExpression (depth : Nat) : Expression α → Text
  | .mk _ t [] => outlineTerm depth t
  | .mk _ t (u :: us) =>
      outlineLine depth "alternatives".toList ++
        (outlineTerm (depth + 1) t ++ outlineTerms (depth + 1) (u :: us))

/-- Several terms, one after the other. -/
def outlineTerms (depth : Nat) : List (Term α) → Text
  | [] => []
  | t :: ts => outlineTerm depth t ++ outlineTerms depth ts

/-- The factors of a term; a single one stands for itself. -/
def outlineTerm (depth : Nat) : Term α → Text
  | .mk _ f [] => outlineFactor depth f
  | .mk _ f (h :: hs) =>
      outlineLine depth "sequence".toList ++
        (outlineFactor (depth + 1) f ++ outlineFactors (depth + 1) (h :: hs))

/-- Several factors, one after the other. -/
def outlineFactors (depth : Nat) : List (Factor α) → Text
  | [] => []
  | f :: fs => outlineFactor depth f ++ outlineFactors depth fs

/-- A primary below its count, and the exception below a line of its own. -/
def outlineFactor (depth : Nat) : Factor α → Text
  | .mk _ none p e => outlinePrimary depth p ++ outlineException depth e
  | .mk _ (some n) p e =>
      outlineLine depth (Text.ofNat n ++ " times".toList) ++
        (outlinePrimary (depth + 1) p ++ outlineException depth e)

/-- An exception that may be missing. -/
def outlineException (depth : Nat) : Option (Primary α) → Text
  | none => []
  | some p => outlineLine depth "except".toList ++ outlinePrimary (depth + 1) p

/-- A primary and what is in its brackets. -/
def outlinePrimary (depth : Nat) : Primary α → Text
  | .reference _ n => outlineLine depth ("ref ".toList ++ n)
  | .literal _ s q => outlineLine depth ("literal ".toList ++ q :: s ++ [q])
  | .bracketed _ b e =>
      outlineLine depth (bracketWord b).toList ++ outlineExpression (depth + 1) e

end

/-- A rule and its body. -/
def outlineRule (g : Grammar) (r : Rule Span) : Text :=
  outlineLine 0 ("rule ".toList ++ r.name ++ " @ ".toList ++
    (g.position r.mark.start).display.toList) ++ outlineExpression 1 r.body

/-- All rules, a node on each line, each deeper than the one that it is part of. -/
def outline (g : Grammar) : Text :=
  g.rules.flatMap (outlineRule g)

/-! ## For programs -/

open Json (Value)

/-- A span. -/
def spanValue (s : Span) : Value :=
  .record [("start", .ofNat s.start), ("end", .ofNat s.stop)]

/-- A token. -/
def tokenValue (t : Token) : Value :=
  .record [("kind", .ofString t.kind.label), ("span", spanValue t.span), ("text", .string t.text)]

/-- A diagnostic. -/
def diagnosticValue (d : Diagnostic) : Value :=
  .record [("severity", .ofString d.severity.label), ("message", .ofString d.message),
    ("span", spanValue d.span), ("code", .ofString d.problem.label)]

/-- The name of a bracket in structured output. -/
def bracketLabel : Bracket → String
  | .group => "Group"
  | .optional => "Optional"
  | .repetition => "Repetition"

mutual

/-- An expression. -/
def expressionValue : Expression Span → Value
  | .mk m t ts =>
      .record [("alternatives", .array (termValue t :: termValues ts)), ("span", spanValue m)]

/-- Several terms. -/
def termValues : List (Term Span) → List Value
  | [] => []
  | t :: ts => termValue t :: termValues ts

/-- A term. -/
def termValue : Term Span → Value
  | .mk m f fs => .record [("factors", .array (factorValue f :: factorValues fs)), ("span", spanValue m)]

/-- Several factors. -/
def factorValues : List (Factor Span) → List Value
  | [] => []
  | f :: fs => factorValue f :: factorValues fs

/-- A factor. -/
def factorValue : Factor Span → Value
  | .mk m n p e =>
      .record [("count", .ofOption .ofNat n), ("primary", primaryValue p),
        ("exception", exceptionValue e), ("span", spanValue m)]

/-- An exception that may be missing. -/
def exceptionValue : Option (Primary Span) → Value
  | none => .null
  | some p => primaryValue p

/-- A primary. -/
def primaryValue : Primary Span → Value
  | .reference m n =>
      .record [("kind", .record [("Reference", .record [("name", .string n)])]),
        ("span", spanValue m)]
  | .literal m s q =>
      .record [("kind", .record [("Literal", .record [("text", .string s), ("quote", .string [q])])]),
        ("span", spanValue m)]
  | .bracketed m b e =>
      .record [("kind", .record [(bracketLabel b, .record [("inner", expressionValue e)])]),
        ("span", spanValue m)]

end

/-- A rule. -/
def ruleValue (r : Rule Span) : Value :=
  .record [("name", .string r.name), ("name_span", spanValue r.nameMark),
    ("body", expressionValue r.body), ("span", spanValue r.mark)]

/-- A grammar. -/
def grammarValue (g : Grammar) : Value :=
  .record [("rules", .array (g.rules.map ruleValue)), ("source_text", .string g.source),
    ("diagnostics", .array (g.diagnostics.map diagnosticValue)),
    ("comments", .object (g.comments.map fun c => (Text.ofNat c.1, .string c.2)))]

/-- A report. -/
def reportValue (r : Report) : Value :=
  .record [("diagnostics", .array (r.diagnostics.map diagnosticValue)),
    ("passes_run", .array (r.passesRun.map fun pass => .ofString pass.name)),
    ("error_count", .ofNat r.errors), ("warning_count", .ofNat r.warnings)]

end EbnfKit.CommandLine
