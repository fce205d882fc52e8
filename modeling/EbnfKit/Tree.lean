import EbnfKit.Text.Basic

/-! # Trees — the bodies of rules

    An expression is a choice of terms, a term a sequence of factors, and a factor a
    primary with an optional count in front and an optional exception behind.  Neither
    a choice nor a sequence is ever empty, so each is a first part and the others.

    Every node carries a mark of type `α`: its span in a tree that was read from a
    text.  Replacing the marks (`map`) forgets or moves places and leaves the
    structure alone. -/

namespace EbnfKit

/-- The three kinds of bracket. -/
inductive Bracket
  | group
  | optional
  | repetition
deriving DecidableEq

mutual

/-- Alternatives, of which there is at least one. -/
inductive Expression (α : Type)
  | mk (mark : α) (first : Term α) (others : List (Term α))

/-- Factors in sequence, of which there is at least one. -/
inductive Term (α : Type)
  | mk (mark : α) (first : Factor α) (others : List (Factor α))

/-- A primary, perhaps repeated an exact number of times, perhaps less an exception. -/
inductive Factor (α : Type)
  | mk (mark : α) (count : Option Nat) (primary : Primary α) (exception : Option (Primary α))

/-- A rule name, a quoted text with its escapes as written, or a bracketed expression. -/
inductive Primary (α : Type)
  | reference (mark : α) (name : Text)
  | literal (mark : α) (text : Text) (quote : Char)
  | bracketed (mark : α) (bracket : Bracket) (inner : Expression α)

end

variable {α β : Type}

namespace Expression

/-- The mark of the node. -/
def mark : Expression α → α
  | .mk m _ _ => m

/-- The alternatives in order. -/
def alternatives : Expression α → List (Term α)
  | .mk _ t ts => t :: ts

end Expression

namespace Term

/-- The mark of the node. -/
def mark : Term α → α
  | .mk m _ _ => m

/-- The factor that the term starts with. -/
def first : Term α → Factor α
  | .mk _ f _ => f

/-- The factors in order. -/
def factors : Term α → List (Factor α)
  | .mk _ f fs => f :: fs

end Term

namespace Factor

/-- The mark of the node. -/
def mark : Factor α → α
  | .mk m _ _ _ => m

/-- How many times the primary is repeated, if that is given. -/
def count : Factor α → Option Nat
  | .mk _ n _ _ => n

/-- What is repeated. -/
def primary : Factor α → Primary α
  | .mk _ _ p _ => p

/-- What is excluded, if anything. -/
def exception : Factor α → Option (Primary α)
  | .mk _ _ _ e => e

/-- Neither a count nor an exception. -/
def isPlain (f : Factor α) : Bool :=
  f.count.isNone && f.exception.isNone

end Factor

namespace Primary

/-- The mark of the node. -/
def mark : Primary α → α
  | .reference m _ => m
  | .literal m _ _ => m
  | .bracketed m _ _ => m

/-- The bracketed expression, if this is one. -/
def inner? : Primary α → Option (Expression α)
  | .bracketed _ _ e => some e
  | _ => none

/-- The rule name, if this is one. -/
def name? : Primary α → Option Text
  | .reference _ n => some n
  | _ => none

end Primary

/-- A node of any sort. -/
inductive Node (α : Type)
  | expression (e : Expression α)
  | term (t : Term α)
  | factor (f : Factor α)
  | primary (p : Primary α)

/-! ## Nodes in source order

    A node comes before its parts, and the parts in the order in which they are
    written: the primary of a factor before its exception. -/

mutual

/-- The expression and all nodes below it. -/
def Expression.nodes : Expression α → List (Node α)
  | .mk m t ts => .expression (.mk m t ts) :: (t.nodes ++ Term.nodesAll ts)

/-- The nodes of several terms. -/
def Term.nodesAll : List (Term α) → List (Node α)
  | [] => []
  | t :: ts => t.nodes ++ Term.nodesAll ts

/-- The term and all nodes below it. -/
def Term.nodes : Term α → List (Node α)
  | .mk m f fs => .term (.mk m f fs) :: (f.nodes ++ Factor.nodesAll fs)

/-- The nodes of several factors. -/
def Factor.nodesAll : List (Factor α) → List (Node α)
  | [] => []
  | f :: fs => f.nodes ++ Factor.nodesAll fs

/-- The factor and all nodes below it. -/
def Factor.nodes : Factor α → List (Node α)
  | .mk m n p e => .factor (.mk m n p e) :: (p.nodes ++ Primary.nodesOpt e)

/-- The nodes of an exception that may be missing. -/
def Primary.nodesOpt : Option (Primary α) → List (Node α)
  | none => []
  | some p => p.nodes

/-- The primary and all nodes below it. -/
def Primary.nodes : Primary α → List (Node α)
  | .reference m n => [.primary (.reference m n)]
  | .literal m s q => [.primary (.literal m s q)]
  | .bracketed m b e => .primary (.bracketed m b e) :: e.nodes

end

namespace Node

/-- The node as an expression. -/
def expression? : Node α → Option (Expression α)
  | .expression e => some e
  | _ => none

/-- The node as a term. -/
def term? : Node α → Option (Term α)
  | .term t => some t
  | _ => none

/-- The node as a factor. -/
def factor? : Node α → Option (Factor α)
  | .factor f => some f
  | _ => none

/-- The node as a primary. -/
def primary? : Node α → Option (Primary α)
  | .primary p => some p
  | _ => none

/-- The rule name that the node uses, with the mark of the use. -/
def use? : Node α → Option (Text × α)
  | .primary (.reference m n) => some (n, m)
  | _ => none

end Node

/-- The rule names used in the expression, with their marks, in source order. -/
def Expression.uses (e : Expression α) : List (Text × α) :=
  e.nodes.filterMap Node.use?

/-- The rule names used in the term, with their marks, in source order. -/
def Term.uses (t : Term α) : List (Text × α) :=
  t.nodes.filterMap Node.use?

/-! ## Other marks on the same structure -/

mutual

/-- The expression with `f` applied to every mark. -/
def Expression.map (f : α → β) : Expression α → Expression β
  | .mk m t ts => .mk (f m) (t.map f) (Term.mapAll f ts)

/-- Several terms with `f` applied to every mark. -/
def Term.mapAll (f : α → β) : List (Term α) → List (Term β)
  | [] => []
  | t :: ts => t.map f :: Term.mapAll f ts

/-- The term with `f` applied to every mark. -/
def Term.map (f : α → β) : Term α → Term β
  | .mk m g gs => .mk (f m) (g.map f) (Factor.mapAll f gs)

/-- Several factors with `f` applied to every mark. -/
def Factor.mapAll (f : α → β) : List (Factor α) → List (Factor β)
  | [] => []
  | g :: gs => g.map f :: Factor.mapAll f gs

/-- The factor with `f` applied to every mark. -/
def Factor.map (f : α → β) : Factor α → Factor β
  | .mk m n p e => .mk (f m) n (p.map f) (Primary.mapOpt f e)

/-- An exception that may be missing, with `f` applied to every mark. -/
def Primary.mapOpt (f : α → β) : Option (Primary α) → Option (Primary β)
  | none => none
  | some p => some (p.map f)

/-- The primary with `f` applied to every mark. -/
def Primary.map (f : α → β) : Primary α → Primary β
  | .reference m n => .reference (f m) n
  | .literal m s q => .literal (f m) s q
  | .bracketed m b e => .bracketed (f m) b (e.map f)

end

end EbnfKit
