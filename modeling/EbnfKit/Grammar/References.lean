import EbnfKit.Grammar.Basic
import EbnfKit.Sorting

/-! # References — who defines a name and who uses it

    Rules refer to each other by name.  The first rule of a name is its definition and
    every later one a duplicate.  A use stands in the body of some rule, exceptions and
    nested brackets included. -/

namespace EbnfKit

/-- One use of a rule name. -/
structure Site where
  name : Text
  span : Span
  /-- Position in the grammar of the rule whose body holds the use. -/
  rule : Nat
deriving DecidableEq

/-- A rule whose name an earlier rule defines. -/
structure Duplicate where
  first : Rule Span
  duplicate : Rule Span

/-- The names that the body of a rule uses, each where it comes first. -/
def Rule.dependencies (r : Rule Span) : List Text :=
  distinctNames (r.body.uses.map (·.1))

/-- The duplicates among `rules`, given the definitions found before them. -/
def duplicatesAfter (definitions : List (Rule Span)) : List (Rule Span) → List Duplicate
  | [] => []
  | r :: rs =>
      match definitions.find? fun d => d.name == r.name with
      | some first => ⟨first, r⟩ :: duplicatesAfter definitions rs
      | none => duplicatesAfter (definitions ++ [r]) rs

namespace Grammar

/-- The first rule of each name, in source order. -/
def definitions (g : Grammar) : List (Rule Span) :=
  distinctBy (·.name) g.rules

/-- The later rules of each name, in source order. -/
def duplicates (g : Grammar) : List Duplicate :=
  duplicatesAfter [] g.rules

/-- Every use of a name, in source order. -/
def sites (g : Grammar) : List Site :=
  g.rules.zipIdx.flatMap fun entry =>
    entry.1.body.uses.map fun use => ⟨use.1, use.2, entry.2⟩

/-- The uses of one name, in source order. -/
def sitesOf (g : Grammar) (name : Text) : List Site :=
  g.sites.filter fun s => s.name == name

end Grammar

/-- Names with their definitions and their uses. -/
structure Index where
  /-- The first definition of each name, by name. -/
  definitions : List (Text × Rule Span)
  /-- The uses of each name that is used, by name. -/
  references : List (Text × List Site)
  /-- The later definitions, in source order. -/
  duplicates : List Duplicate

/-- The index of a grammar. -/
def Grammar.index (g : Grammar) : Index :=
  { definitions := (sortedNames g.names).filterMap fun n => (g.definition? n).map fun r => (n, r)
    references := (sortedNames (g.sites.map (·.name))).map fun n => (n, g.sitesOf n)
    duplicates := g.duplicates }

end EbnfKit
