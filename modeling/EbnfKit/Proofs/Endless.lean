import EbnfKit.Proofs.Searches

/-! # Endless rules — what a warning says about a rule

    The alternatives of a rule are searched in order, each afresh, until one finishes.  The
    rule is reported where none does:

      a warning at r                  implies   no alternative of r finishes without r
      no warning, no name met again   implies   some alternative does

    A warning stands at the definition of a name, and a rule has one warning at most. -/

namespace EbnfKit

variable {g : Grammar} {r : Rule Span}

namespace Grammar

/-- The search for the alternative is run: those in front of it were searched in vain. -/
def Searches (g : Grammar) (r : Rule Span) (t : Term Span) : Prop :=
  ∃ front back, r.body.alternatives = front ++ t :: back ∧
    ∀ u ∈ front, ∃ log, Runs g r.name (.all u.factors) [] false log

theorem Searches.mem {t : Term Span} (h : g.Searches r t) : t ∈ r.body.alternatives := by
  obtain ⟨front, back, hsplit, -⟩ := h
  rw [hsplit]
  exact List.mem_append_right front List.mem_cons_self

end Grammar

namespace Check

open Grammar

/-! ## Warnings -/

/-- A rule that never ends is overlooked where its search meets a name again. -/
example : (endlessRules (parse "a = b ; b = b ;".toList)).map (·.span) = [⟨8, 9⟩] := by
  decide +kernel

end Check

end EbnfKit
