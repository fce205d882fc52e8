import Mathlib.Algebra.BigOperators.Group.List.Basic
import Mathlib.Computability.Language
import EbnfKit.Proofs.Tree

/-! # Meaning — the language of an expression

    Once the rule names stand for languages, and literals for texts, so does every node:

      x | y  ↦  x + y              [ x ]  ↦  x + 1             ( x )  ↦  x
      x , y  ↦  x * y              { x }  ↦  x∗                n * p - e  ↦  (p - e) ^ n

    A count repeats what is left of the primary without the exception, since the exception
    belongs to the factor and not to the primary.  Marks have no meaning. -/

namespace EbnfKit

open Computability

variable {α : Type}

/-- What rule names stand for, and how the content of a literal is spelled, given its
    quote. -/
structure Interpretation where
  names : Text → Language Char
  spell : Text → Char → Text

/-- The language of what is in a bracket, given that of its inner expression. -/
def Bracket.denote (l : Language Char) : Bracket → Language Char
  | .group => l
  | .optional => l + 1
  | .repetition => l∗

/-- What is left of a language without an exception that may be missing. -/
def excluding (l : Language Char) : Option (Language Char) → Language Char
  | none => l
  | some m => l - m

mutual

/-- The union of the alternatives. -/
def Expression.denote (i : Interpretation) : Expression α → Language Char
  | .mk _ t ts => t.denote i + Term.denoteAll i ts

/-- The union of several alternatives. -/
def Term.denoteAll (i : Interpretation) : List (Term α) → Language Char
  | [] => 0
  | t :: ts => t.denote i + Term.denoteAll i ts

/-- The concatenation of the factors. -/
def Term.denote (i : Interpretation) : Term α → Language Char
  | .mk _ f fs => f.denote i * Factor.denoteAll i fs

/-- The concatenation of several factors. -/
def Factor.denoteAll (i : Interpretation) : List (Factor α) → Language Char
  | [] => 1
  | f :: fs => f.denote i * Factor.denoteAll i fs

/-- As many copies as the count says of the primary without the exception. -/
def Factor.denote (i : Interpretation) : Factor α → Language Char
  | .mk _ n p x => excluding (p.denote i) (Primary.denoteOpt i x) ^ n.getD 1

/-- The language of an exception that may be missing. -/
def Primary.denoteOpt (i : Interpretation) : Option (Primary α) → Option (Language Char)
  | none => none
  | some p => some (p.denote i)

/-- What the name stands for, the one text of the literal, or what the bracket makes of its
    inner expression. -/
def Primary.denote (i : Interpretation) : Primary α → Language Char
  | .reference _ n => i.names n
  | .literal _ s q => {i.spell s q}
  | .bracketed _ b e => b.denote (e.denote i)

end

variable {i : Interpretation}

theorem Expression.denote_mk (m : α) (t : Term α) (ts : List (Term α)) :
    (Expression.mk m t ts).denote i = ((t :: ts).map (Term.denote i)).sum := by
  have hall : ∀ ts : List (Term α), Term.denoteAll i ts = (ts.map (Term.denote i)).sum := by
    intro ts
    induction ts with
    | nil => rfl
    | cons t ts ih => rw [Term.denoteAll, ih, List.map_cons, List.sum_cons]
  rw [Expression.denote, hall, List.map_cons, List.sum_cons]

theorem Term.denote_mk (m : α) (f : Factor α) (fs : List (Factor α)) :
    (Term.mk m f fs).denote i = ((f :: fs).map (Factor.denote i)).prod := by
  have hall : ∀ fs : List (Factor α), Factor.denoteAll i fs = (fs.map (Factor.denote i)).prod := by
    intro fs
    induction fs with
    | nil => rfl
    | cons f fs ih => rw [Factor.denoteAll, ih, List.map_cons, List.prod_cons]
  rw [Term.denote, hall, List.map_cons, List.prod_cons]

theorem Primary.denoteOpt_eq_map (x : Option (Primary α)) :
    Primary.denoteOpt i x = x.map (Primary.denote i) := by
  cases x <;> rfl

theorem Factor.denote_mk (m : α) (n : Option Nat) (p : Primary α) (x : Option (Primary α)) :
    (Factor.mk m n p x).denote i
      = excluding (p.denote i) (x.map (Primary.denote i)) ^ n.getD 1 := by
  rw [Factor.denote, Primary.denoteOpt_eq_map]

/-- A factor with neither a count nor an exception means what its primary means. -/
theorem Factor.denote_plain (m : α) (p : Primary α) :
    (Factor.mk m none p none).denote i = p.denote i := by
  rw [Factor.denote_mk]
  exact pow_one _

/-- A term of one factor means what the factor means. -/
theorem Term.denote_one (m : α) (f : Factor α) : (Term.mk m f []).denote i = f.denote i := by
  rw [Term.denote_mk]
  exact mul_one _

/-- A group around one factor means what the factor means. -/
theorem Primary.denote_group (m m' m'' : α) (f : Factor α) :
    (Primary.bracketed m .group (.mk m' (.mk m'' f []) [])).denote i = f.denote i := by
  show (Expression.mk m' (.mk m'' f []) []).denote i = f.denote i
  rw [Expression.denote_mk, List.map_singleton, List.sum_singleton, Term.denote_one]

/-- Marks have no meaning. -/
theorem denote_shape :
    Hereditary (fun e : Expression α => e.shape.denote i = e.denote i)
      (fun t => t.shape.denote i = t.denote i) (fun f => f.shape.denote i = f.denote i)
      (fun p => p.shape.denote i = p.denote i) where
  expression := by
    intro m t ts ih
    rw [Expression.shape_mk, Expression.denote_mk, Expression.denote_mk, ← List.map_cons,
      List.map_map]
    exact congrArg List.sum (List.map_congr_left ih)
  term := by
    intro m f fs ih
    rw [Term.shape_mk, Term.denote_mk, Term.denote_mk, ← List.map_cons, List.map_map]
    exact congrArg List.prod (List.map_congr_left ih)
  factor := by
    intro m n p x hp hx
    rw [Factor.shape_mk, Factor.denote_mk, Factor.denote_mk, hp]
    cases x with
    | none => rfl
    | some q => rw [Option.map_some, Option.map_some, Option.map_some, hx q rfl]
  reference := by intro m n; rfl
  literal := by intro m s q; rfl
  bracketed := by
    intro m b e he
    show b.denote (e.shape.denote i) = b.denote (e.denote i)
    rw [he]

end EbnfKit
