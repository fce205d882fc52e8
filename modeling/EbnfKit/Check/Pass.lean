import EbnfKit.Text.Basic

/-! # Passes — the checks and how they are selected

    Each check has a name under which it can be selected.  A selection is a set: it
    runs in a fixed order, whatever the order in which it was written. -/

namespace EbnfKit

/-- The checks, in the order in which they run. -/
inductive Pass
  | undefinedRule
  | duplicateRule
  | unreachableRule
  | recursion
  | ambiguousPrefix
  | redundantParentheses
  | simplifiableRepetition
deriving DecidableEq

namespace Pass

/-- Every check, in order. -/
def all : List Pass :=
  [undefinedRule, duplicateRule, unreachableRule, recursion, ambiguousPrefix,
    redundantParentheses, simplifiableRepetition]

/-- The name of the check. -/
def name : Pass → String
  | undefinedRule => "undefined-rule"
  | duplicateRule => "duplicate-rule"
  | unreachableRule => "unreachable-rule"
  | recursion => "recursion"
  | ambiguousPrefix => "ambiguous-prefix"
  | redundantParentheses => "redundant-parentheses"
  | simplifiableRepetition => "simplifiable-repetition"

/-- The place of the check in the order. -/
def rank : Pass → Nat
  | undefinedRule => 0
  | duplicateRule => 1
  | unreachableRule => 2
  | recursion => 3
  | ambiguousPrefix => 4
  | redundantParentheses => 5
  | simplifiableRepetition => 6

/-- The check of the given name. -/
def ofName? (text : String) : Option Pass :=
  all.find? fun pass => pass.name == text

/-- The given checks as a set: each once, in order. -/
def ordered (chosen : List Pass) : List Pass :=
  all.filter fun pass => chosen.contains pass

end Pass

/-- Why a selection is refused. -/
inductive SelectionError
  | unknownPass (name : Text)
  | emptySelection
deriving DecidableEq

/-- The error in words. -/
def SelectionError.message : SelectionError → String
  | unknownPass name =>
      "unknown analysis pass `" ++ String.ofList name ++ "` (expected one of: "
        ++ String.intercalate ", " (Pass.all.map Pass.name) ++ ")"
  | emptySelection => "pass selection is empty"

/-- The check of the given name, or the error. -/
def Pass.named (name : Text) : Except SelectionError Pass :=
  match ofName? (String.ofList name) with
  | some pass => .ok pass
  | none => .error (.unknownPass name)

/-- A selection written as names with commas between them.  White space around a name
    and empty places between commas do not count, but something must be selected. -/
def Pass.parseList (list : Text) : Except SelectionError (List Pass) := do
  let names := ((list.splitOn ',').map Text.trim).filter fun name => !name.isEmpty
  let chosen ← names.mapM Pass.named
  if chosen.isEmpty then throw .emptySelection
  return ordered chosen

/-- What to check: the checks, each once and in order, and the rule that anchors
    reachability, the first one unless given. -/
structure Config where
  passes : List Pass := Pass.all
  startRule : Option Text := none
deriving DecidableEq

namespace Config

/-- The check is selected. -/
def runs (c : Config) (pass : Pass) : Bool :=
  c.passes.contains pass

end Config

end EbnfKit
