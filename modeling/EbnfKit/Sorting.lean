import EbnfKit.Text.Basic

/-! # Sorting — lists in order, and lists without repetitions

    Reports are sorted so that equal keys keep the order in which they were
    produced.  Each element is inserted in front of the first one it does not come
    after, starting from the last, so elements that compare alike never change
    places.

    Listings show each name once: in the order of first use, or in the order of the
    names themselves. -/

namespace EbnfKit

variable {α β : Type}

/-! ## Stable sorting -/

/-- `a` in front of the first element that it comes no later than. -/
def insertSorted (le : α → α → Bool) (a : α) : List α → List α
  | [] => [a]
  | b :: bs => if le a b then a :: b :: bs else b :: insertSorted le a bs

/-- The elements in the order `le`; those alike in the order given. -/
def stableSort (le : α → α → Bool) : List α → List α
  | [] => []
  | a :: as => insertSorted le a (stableSort le as)

/-! ## Distinct elements -/

/-- The elements whose key no earlier element has, in order. -/
def distinctBy [DecidableEq β] (key : α → β) : List α → List α
  | [] => []
  | a :: as => a :: (distinctBy key as).filter fun b => key b ≠ key a

/-- The names, each where it comes first. -/
def distinctNames (names : List Text) : List Text :=
  distinctBy id names

/-- The names, each once, in ascending order. -/
def sortedNames (names : List Text) : List Text :=
  stableSort (fun a b => !b.before a) (distinctNames names)

end EbnfKit
