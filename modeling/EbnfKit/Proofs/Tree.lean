import EbnfKit.Grammar.Printer
import Mathlib.Data.List.Basic

/-! # Trees — one induction for all four sorts

    The sorts of a tree hold each other, and lists of each other, so every statement
    about trees is four statements proved together.  `Hereditary` packages that once: a
    node may assume the statement for each of its parts, in whatever list they stand.

    The walks over several terms or factors are `map` and `flatMap` over those lists.
    `shape` is a tree with its marks forgotten, and `nesting` counts how deep brackets
    are stacked in it. -/

namespace EbnfKit

variable {α β γ : Type}

/-! ## Induction -/

/-- A statement for each sort that a node inherits from its parts. -/
structure Hereditary (onExpression : Expression α → Prop) (onTerm : Term α → Prop)
    (onFactor : Factor α → Prop) (onPrimary : Primary α → Prop) : Prop where
  expression : ∀ m t ts, (∀ u ∈ t :: ts, onTerm u) → onExpression (.mk m t ts)
  term : ∀ m f fs, (∀ g ∈ f :: fs, onFactor g) → onTerm (.mk m f fs)
  factor : ∀ m n p x, onPrimary p → (∀ q ∈ x, onPrimary q) → onFactor (.mk m n p x)
  reference : ∀ m n, onPrimary (.reference m n)
  literal : ∀ m s q, onPrimary (.literal m s q)
  bracketed : ∀ m b e, onExpression e → onPrimary (.bracketed m b e)

namespace Hereditary

variable {onExpression : Expression α → Prop} {onTerm : Term α → Prop}
  {onFactor : Factor α → Prop} {onPrimary : Primary α → Prop}

/-- What holds anyway need not be inherited. -/
theorem of_forall (he : ∀ e, onExpression e) (ht : ∀ t, onTerm t) (hf : ∀ f, onFactor f)
    (hp : ∀ p, onPrimary p) : Hereditary onExpression onTerm onFactor onPrimary where
  expression _ _ _ _ := he _
  term _ _ _ _ := ht _
  factor _ _ _ _ _ _ := hf _
  reference _ _ := hp _
  literal _ _ _ := hp _
  bracketed _ _ _ _ := hp _

mutual

/-- It holds of every expression. -/
theorem expressions (h : Hereditary onExpression onTerm onFactor onPrimary) :
    ∀ e, onExpression e
  | .mk m t ts => by
      refine h.expression m t ts ?_
      intro u hu
      rcases List.mem_cons.mp hu with heq | hmem
      · rw [heq]; exact h.terms t
      · exact h.termList ts u hmem

private theorem termList (h : Hereditary onExpression onTerm onFactor onPrimary) :
    ∀ ts : List (Term α), ∀ t ∈ ts, onTerm t
  | [], _, hu => nomatch hu
  | t :: ts, u, hu => by
      rcases List.mem_cons.mp hu with heq | hmem
      · rw [heq]; exact h.terms t
      · exact h.termList ts u hmem

/-- It holds of every term. -/
theorem terms (h : Hereditary onExpression onTerm onFactor onPrimary) : ∀ t, onTerm t
  | .mk m f fs => by
      refine h.term m f fs ?_
      intro g hg
      rcases List.mem_cons.mp hg with heq | hmem
      · rw [heq]; exact h.factors f
      · exact h.factorList fs g hmem

private theorem factorList (h : Hereditary onExpression onTerm onFactor onPrimary) :
    ∀ fs : List (Factor α), ∀ f ∈ fs, onFactor f
  | [], _, hg => nomatch hg
  | f :: fs, g, hg => by
      rcases List.mem_cons.mp hg with heq | hmem
      · rw [heq]; exact h.factors f
      · exact h.factorList fs g hmem

/-- It holds of every factor. -/
theorem factors (h : Hereditary onExpression onTerm onFactor onPrimary) : ∀ f, onFactor f
  | .mk m n p x => h.factor m n p x (h.primaries p) (h.exceptions x)

private theorem exceptions (h : Hereditary onExpression onTerm onFactor onPrimary) :
    ∀ x : Option (Primary α), ∀ p ∈ x, onPrimary p
  | none, _, hp => nomatch hp
  | some p, q, hq => by
      rw [← Option.some.inj hq]
      exact h.primaries p

/-- It holds of every primary. -/
theorem primaries (h : Hereditary onExpression onTerm onFactor onPrimary) :
    ∀ p, onPrimary p
  | .reference m n => h.reference m n
  | .literal m s q => h.literal m s q
  | .bracketed m b e => h.bracketed m b e (h.expressions e)

end

end Hereditary

/-! ## Walks over lists -/

theorem Term.mapAll_eq_map (f : α → β) (ts : List (Term α)) :
    Term.mapAll f ts = ts.map (·.map f) := by
  induction ts with
  | nil => rfl
  | cons t ts ih => rw [Term.mapAll, ih, List.map_cons]

theorem Factor.mapAll_eq_map (f : α → β) (fs : List (Factor α)) :
    Factor.mapAll f fs = fs.map (·.map f) := by
  induction fs with
  | nil => rfl
  | cons g gs ih => rw [Factor.mapAll, ih, List.map_cons]

theorem Primary.mapOpt_eq_map (f : α → β) (x : Option (Primary α)) :
    Primary.mapOpt f x = x.map (·.map f) := by
  cases x <;> rfl

theorem Expression.map_mk (f : α → β) (m : α) (t : Term α) (ts : List (Term α)) :
    (Expression.mk m t ts).map f = .mk (f m) (t.map f) (ts.map (·.map f)) := by
  rw [Expression.map, Term.mapAll_eq_map]

theorem Term.map_mk (f : α → β) (m : α) (g : Factor α) (gs : List (Factor α)) :
    (Term.mk m g gs).map f = .mk (f m) (g.map f) (gs.map (·.map f)) := by
  rw [Term.map, Factor.mapAll_eq_map]

theorem Factor.map_mk (f : α → β) (m : α) (n : Option Nat) (p : Primary α)
    (x : Option (Primary α)) :
    (Factor.mk m n p x).map f = .mk (f m) n (p.map f) (x.map (·.map f)) := by
  rw [Factor.map, Primary.mapOpt_eq_map]

theorem Term.mark_map (f : α → β) (t : Term α) : (t.map f).mark = f t.mark := by
  cases t
  rfl

theorem Factor.mark_map (f : α → β) (g : Factor α) : (g.map f).mark = f g.mark := by
  cases g
  rfl

theorem Primary.mark_map (f : α → β) (p : Primary α) : (p.map f).mark = f p.mark := by
  cases p <;> rfl

theorem Expression.nodes_mk (m : α) (t : Term α) (ts : List (Term α)) :
    (Expression.mk m t ts).nodes
      = .expression (.mk m t ts) :: (t :: ts).flatMap Term.nodes := by
  have hall : ∀ ts : List (Term α), Term.nodesAll ts = ts.flatMap Term.nodes := by
    intro ts
    induction ts with
    | nil => rfl
    | cons t ts ih => rw [Term.nodesAll, ih, List.flatMap_cons]
  rw [nodes, hall, List.flatMap_cons]

theorem Term.nodes_mk (m : α) (f : Factor α) (fs : List (Factor α)) :
    (Term.mk m f fs).nodes = .term (.mk m f fs) :: (f :: fs).flatMap Factor.nodes := by
  have hall : ∀ fs : List (Factor α), Factor.nodesAll fs = fs.flatMap Factor.nodes := by
    intro fs
    induction fs with
    | nil => rfl
    | cons f fs ih => rw [Factor.nodesAll, ih, List.flatMap_cons]
  rw [nodes, hall, List.flatMap_cons]

theorem Factor.nodes_mk (m : α) (n : Option Nat) (p : Primary α) (x : Option (Primary α)) :
    (Factor.mk m n p x).nodes
      = .factor (.mk m n p x) :: (p.nodes ++ x.toList.flatMap Primary.nodes) := by
  cases x with
  | none => rfl
  | some q => rw [nodes, Primary.nodesOpt, Option.toList_some, List.flatMap_singleton]

/-- Marks that stay as they are leave the tree as it is. -/
theorem map_id :
    Hereditary (fun e : Expression α => e.map id = e) (fun t => t.map id = t)
      (fun f => f.map id = f) (fun p => p.map id = p) where
  expression := by
    intro m t ts ih
    obtain ⟨ht, hts⟩ := List.forall_mem_cons.mp ih
    rw [Expression.map_mk, ht, List.map_congr_left hts, List.map_id']
    rfl
  term := by
    intro m f fs ih
    obtain ⟨hf, hfs⟩ := List.forall_mem_cons.mp ih
    rw [Term.map_mk, hf, List.map_congr_left hfs, List.map_id']
    rfl
  factor := by
    intro m n p x hp hx
    cases x with
    | none => rw [Factor.map_mk, hp]; rfl
    | some q => rw [Factor.map_mk, hp, Option.map_some, hx q rfl]; rfl
  reference := by intro m n; rfl
  literal := by intro m s q; rfl
  bracketed := by
    intro m b e he
    rw [Primary.map, he]
    rfl

/-- Marks that are replaced twice. -/
theorem map_map (f : α → β) (g : β → γ) :
    Hereditary (fun e : Expression α => (e.map f).map g = e.map (g ∘ f))
      (fun t => (t.map f).map g = t.map (g ∘ f)) (fun h => (h.map f).map g = h.map (g ∘ f))
      (fun p => (p.map f).map g = p.map (g ∘ f)) where
  expression := by
    intro m t ts ih
    obtain ⟨ht, hts⟩ := List.forall_mem_cons.mp ih
    rw [Expression.map_mk, Expression.map_mk, Expression.map_mk, ht, List.map_map]
    exact congrArg (Expression.mk _ _) (List.map_congr_left hts)
  term := by
    intro m h hs ih
    obtain ⟨hh, hhs⟩ := List.forall_mem_cons.mp ih
    rw [Term.map_mk, Term.map_mk, Term.map_mk, hh, List.map_map]
    exact congrArg (Term.mk _ _) (List.map_congr_left hhs)
  factor := by
    intro m n p x hp hx
    cases x with
    | none => rw [Factor.map_mk, Factor.map_mk, Factor.map_mk, hp]; rfl
    | some q =>
        rw [Factor.map_mk, Factor.map_mk, Factor.map_mk, hp, Option.map_some, Option.map_some,
          Option.map_some, hx q rfl]
        rfl
  reference := by intro m n; rfl
  literal := by intro m s q; rfl
  bracketed := by
    intro m b e he
    rw [Primary.map, Primary.map, Primary.map, he]
    rfl

theorem Rule.map_id (r : Rule α) : r.map id = r := by
  rw [Rule.map, EbnfKit.map_id.expressions r.body]
  rfl

/-! ## Nesting -/

mutual

/-- How deep brackets are stacked in the expression. -/
def Expression.nesting : Expression α → Nat
  | .mk _ t ts => max t.nesting (Term.nestingAll ts)

/-- How deep brackets are stacked in several terms. -/
def Term.nestingAll : List (Term α) → Nat
  | [] => 0
  | t :: ts => max t.nesting (Term.nestingAll ts)

/-- How deep brackets are stacked in the term. -/
def Term.nesting : Term α → Nat
  | .mk _ f fs => max f.nesting (Factor.nestingAll fs)

/-- How deep brackets are stacked in several factors. -/
def Factor.nestingAll : List (Factor α) → Nat
  | [] => 0
  | f :: fs => max f.nesting (Factor.nestingAll fs)

/-- How deep brackets are stacked in the factor. -/
def Factor.nesting : Factor α → Nat
  | .mk _ _ p x => max p.nesting (Primary.nestingOpt x)

/-- How deep brackets are stacked in an exception that may be missing. -/
def Primary.nestingOpt : Option (Primary α) → Nat
  | none => 0
  | some p => p.nesting

/-- How deep brackets are stacked in the primary, itself included. -/
def Primary.nesting : Primary α → Nat
  | .reference _ _ => 0
  | .literal _ _ _ => 0
  | .bracketed _ _ e => e.nesting + 1

end

theorem Term.nestingAll_le_iff {ts : List (Term α)} {n : Nat} :
    Term.nestingAll ts ≤ n ↔ ∀ t ∈ ts, t.nesting ≤ n := by
  induction ts with
  | nil => simp [Term.nestingAll]
  | cons t ts ih => rw [Term.nestingAll, Nat.max_le, ih, List.forall_mem_cons]

theorem Factor.nestingAll_le_iff {fs : List (Factor α)} {n : Nat} :
    Factor.nestingAll fs ≤ n ↔ ∀ f ∈ fs, f.nesting ≤ n := by
  induction fs with
  | nil => simp [Factor.nestingAll]
  | cons f fs ih => rw [Factor.nestingAll, Nat.max_le, ih, List.forall_mem_cons]

theorem Expression.nesting_le_iff {m : α} {t : Term α} {ts : List (Term α)} {n : Nat} :
    (Expression.mk m t ts).nesting ≤ n ↔ ∀ u ∈ t :: ts, u.nesting ≤ n := by
  rw [Expression.nesting, Nat.max_le, Term.nestingAll_le_iff, List.forall_mem_cons]

theorem Term.nesting_le_iff {m : α} {f : Factor α} {fs : List (Factor α)} {n : Nat} :
    (Term.mk m f fs).nesting ≤ n ↔ ∀ g ∈ f :: fs, g.nesting ≤ n := by
  rw [Term.nesting, Nat.max_le, Factor.nestingAll_le_iff, List.forall_mem_cons]

theorem Factor.nesting_le_iff {m : α} {c : Option Nat} {p : Primary α} {x : Option (Primary α)}
    {n : Nat} : (Factor.mk m c p x).nesting ≤ n ↔ p.nesting ≤ n ∧ ∀ q ∈ x, q.nesting ≤ n := by
  cases x with
  | none => simp [Factor.nesting, Primary.nestingOpt]
  | some q =>
      rw [Factor.nesting, Nat.max_le, Primary.nestingOpt]
      simp

/-! ## Shapes -/

/-- The expression with its marks forgotten. -/
def Expression.shape (e : Expression α) : Expression Unit := e.map fun _ => ()

/-- The term with its marks forgotten. -/
def Term.shape (t : Term α) : Term Unit := t.map fun _ => ()

/-- The factor with its marks forgotten. -/
def Factor.shape (f : Factor α) : Factor Unit := f.map fun _ => ()

/-- The primary with its marks forgotten. -/
def Primary.shape (p : Primary α) : Primary Unit := p.map fun _ => ()

/-- The rule with its marks forgotten. -/
def Rule.shape (r : Rule α) : Rule Unit := r.map fun _ => ()

@[simp] theorem Expression.shape_mk (m : α) (t : Term α) (ts : List (Term α)) :
    (Expression.mk m t ts).shape = .mk () t.shape (ts.map Term.shape) :=
  Expression.map_mk _ m t ts

@[simp] theorem Term.shape_mk (m : α) (f : Factor α) (fs : List (Factor α)) :
    (Term.mk m f fs).shape = .mk () f.shape (fs.map Factor.shape) :=
  Term.map_mk _ m f fs

@[simp] theorem Factor.shape_mk (m : α) (n : Option Nat) (p : Primary α)
    (x : Option (Primary α)) :
    (Factor.mk m n p x).shape = .mk () n p.shape (x.map Primary.shape) :=
  Factor.map_mk _ m n p x

@[simp] theorem Primary.shape_bracketed (m : α) (b : Bracket) (e : Expression α) :
    (Primary.bracketed m b e).shape = .bracketed () b e.shape := rfl

/-- Marks do not change how deep brackets are stacked. -/
theorem nesting_map (f : α → β) :
    Hereditary (fun e : Expression α => (e.map f).nesting = e.nesting)
      (fun t => (t.map f).nesting = t.nesting) (fun g => (g.map f).nesting = g.nesting)
      (fun p => (p.map f).nesting = p.nesting) where
  expression := by
    intro m t ts ih
    -- the two are below the same numbers, since each term is
    have hle : ∀ n, ((Expression.mk m t ts).map f).nesting ≤ n ↔
        (Expression.mk m t ts).nesting ≤ n := by
      intro n
      rw [Expression.map_mk, Expression.nesting_le_iff, Expression.nesting_le_iff,
        ← List.map_cons, List.forall_mem_map]
      exact forall₂_congr fun u hu => by rw [ih u hu]
    exact Nat.le_antisymm ((hle _).mpr (Nat.le_refl _)) ((hle _).mp (Nat.le_refl _))
  term := by
    intro m g gs ih
    have hle : ∀ n, ((Term.mk m g gs).map f).nesting ≤ n ↔ (Term.mk m g gs).nesting ≤ n := by
      intro n
      rw [Term.map_mk, Term.nesting_le_iff, Term.nesting_le_iff, ← List.map_cons,
        List.forall_mem_map]
      exact forall₂_congr fun h hh => by rw [ih h hh]
    exact Nat.le_antisymm ((hle _).mpr (Nat.le_refl _)) ((hle _).mp (Nat.le_refl _))
  factor := by
    intro m n p x hp hx
    rw [Factor.map_mk]
    cases x with
    | none => rw [Option.map_none, Factor.nesting, Factor.nesting, hp]; rfl
    | some q =>
        rw [Option.map_some, Factor.nesting, Factor.nesting, hp, Primary.nestingOpt,
          Primary.nestingOpt, hx q rfl]
  reference := by intro m n; rfl
  literal := by intro m s q; rfl
  bracketed := by
    intro m b e he
    rw [Primary.map, Primary.nesting, Primary.nesting, he]

theorem nesting_shape :
    Hereditary (fun e : Expression α => e.shape.nesting = e.nesting)
      (fun t => t.shape.nesting = t.nesting) (fun f => f.shape.nesting = f.nesting)
      (fun p => p.shape.nesting = p.nesting) :=
  nesting_map fun _ => ()

/-! ## Print -/

theorem Term.renderOthers_eq_flatMap (ts : List (Term α)) :
    Term.renderOthers ts = ts.flatMap fun t => [' ', '|', ' '] ++ t.render := by
  induction ts with
  | nil => rfl
  | cons t ts ih => rw [Term.renderOthers, ih, List.flatMap_cons]

theorem Factor.renderOthers_eq_flatMap (fs : List (Factor α)) :
    Factor.renderOthers fs = fs.flatMap fun f => [',', ' '] ++ f.render := by
  induction fs with
  | nil => rfl
  | cons f fs ih => rw [Factor.renderOthers, ih, List.flatMap_cons]

/-- Marks do not show in print. -/
theorem render_shape :
    Hereditary (fun e : Expression α => e.shape.render = e.render)
      (fun t => t.shape.render = t.render) (fun f => f.shape.render = f.render)
      (fun p => p.shape.render = p.render) where
  expression := by
    intro m t ts ih
    obtain ⟨ht, hts⟩ := List.forall_mem_cons.mp ih
    rw [Expression.shape_mk, Expression.render, Expression.render, ht,
      Term.renderOthers_eq_flatMap, Term.renderOthers_eq_flatMap, List.flatMap_map]
    exact congrArg _ (List.flatMap_congr fun u hu => by rw [hts u hu])
  term := by
    intro m f fs ih
    obtain ⟨hf, hfs⟩ := List.forall_mem_cons.mp ih
    rw [Term.shape_mk, Term.render, Term.render, hf, Factor.renderOthers_eq_flatMap,
      Factor.renderOthers_eq_flatMap, List.flatMap_map]
    exact congrArg _ (List.flatMap_congr fun g hg => by rw [hfs g hg])
  factor := by
    intro m n p x hp hx
    have hexception : Primary.renderException (x.map Primary.shape)
        = Primary.renderException x := by
      cases x with
      | none => rfl
      | some q => rw [Option.map_some, Primary.renderException, Primary.renderException, hx q rfl]
    rw [Factor.shape_mk]
    cases n with
    | none => rw [Factor.render, Factor.render, hp, hexception]
    | some n => rw [Factor.render, Factor.render, hp, hexception]
  reference := by intro m n; rfl
  literal := by intro m s q; rfl
  bracketed := by
    intro m b e he
    rw [Primary.shape_bracketed, Primary.render, Primary.render, he]

end EbnfKit
