import EbnfKit.Grammar.Printer
import EbnfKit.Sorting

/-! # Leads — alternatives that start alike

    What an alternative starts with is its lead: the first primary, whatever its count
    or exception.  Alternatives of one expression with the same lead cannot be told
    apart by looking one token ahead. -/

namespace EbnfKit

/-- What a term starts with.  Quotes do not matter, and a bracketed expression counts by
    its canonical text. -/
inductive Lead
  | rule (name : Text)
  | terminal (text : Text)
  | bracketed (text : Text)
deriving DecidableEq

namespace Lead

/-- The lead of a primary. -/
def ofPrimary {α : Type} : Primary α → Lead
  | .reference _ n => .rule n
  | .literal _ s _ => .terminal s
  | .bracketed m b e => .bracketed (Primary.bracketed m b e).render

/-- The lead of a term. -/
def ofTerm {α : Type} (t : Term α) : Lead :=
  ofPrimary t.first.primary

/-- The lead in the words of a message. -/
def describe : Lead → String
  | rule name => s!"rule `{String.ofList name}`"
  | terminal text => "terminal \"" ++ String.ofList text ++ "\""
  | bracketed text => s!"`{String.ofList text}`"

end Lead

namespace Check

/-- The numbers of the alternatives that start with `lead`, counted from one. -/
def startingWith (leads : List Lead) (lead : Lead) : List Nat :=
  (leads.zipIdx 1).filterMap fun entry => if entry.1 = lead then some entry.2 else none

/-- The leads that several alternatives share, in the order of their first alternatives,
    each with the numbers of all its alternatives. -/
def sharedLeads (leads : List Lead) : List (Lead × List Nat) :=
  ((distinctBy id leads).map fun lead => (lead, startingWith leads lead)).filter fun entry =>
    entry.2.length > 1

/-- One shared lead in words. -/
def describeShared (entry : Lead × List Nat) : String :=
  "alternatives " ++ String.intercalate ", " (entry.2.map toString)
    ++ " all start with " ++ entry.1.describe

/-- The warning for an expression, if some of its alternatives start alike. -/
def ambiguousExpression? (e : Expression Span) : Option Diagnostic :=
  match sharedLeads (e.alternatives.map Lead.ofTerm) with
  | [] => none
  | shared =>
      some ⟨.ambiguousPrefix, e.mark,
        "ambiguous prefix: " ++ String.intercalate "; " (shared.map describeShared)⟩

/-- A warning for every expression some of whose alternatives start alike. -/
def ambiguousExpressions (g : Grammar) : List Diagnostic :=
  (g.nodes.filterMap (·.expression?)).filterMap ambiguousExpression?

end Check

end EbnfKit
