import EbnfKit.Fix.Offer
import EbnfKit.Grammar.Parser

/-! # Rounds — fix, then look again

    A round offers fixes for diagnostics and applies them all.  One round may open the
    way for another: of two groups nested in each other only the outer one goes.  So
    rounds are repeated until there is nothing left to fix, or until there were enough
    of them. -/

namespace EbnfKit.Fix

/-- The fixes that diagnostics of a grammar have, and its text with them applied. -/
def round (g : Grammar) (ds : List Diagnostic) : Except FixError (List Fix × Text) := do
  let fixes ← offerAll g ds
  let text ← apply g.source fixes
  return (fixes, text)

/-- Why rounds come to nothing. -/
inductive RoundsError
  /-- A fix cannot be found or applied. -/
  | fix (error : FixError)
  /-- The text after a round has syntax errors. -/
  | broken (round count : Nat)
deriving DecidableEq

/-- The text after some rounds, and how many fixes were applied. -/
structure Fixed where
  text : Text
  applied : Nat
deriving DecidableEq

/-- At most so many rounds of fixes for all that the checks find; `number` is the number
    of the first one. -/
def rounds (number : Nat) : Nat → Grammar → Except RoundsError Fixed
  | 0, g => .ok ⟨g.source, 0⟩
  | left + 1, g =>
      match round g g.analyze with
      | .error e => .error (.fix e)
      | .ok ([], _) => .ok ⟨g.source, 0⟩
      | .ok (fixes, text) =>
          let next := Grammar.parse text
          if next.isBroken then .error (.broken number next.diagnostics.length)
          else
            (rounds (number + 1) left next).map fun fixed =>
              ⟨fixed.text, fixes.length + fixed.applied⟩

/-- So many rounds are enough. -/
def maxRounds : Nat := 8

end EbnfKit.Fix
