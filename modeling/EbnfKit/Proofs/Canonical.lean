import EbnfKit.Proofs.Clean
import EbnfKit.Proofs.Nodes

/-! # Canonical texts — what is printed tells trees apart

    Trees that were read from texts are printed alike exactly if they are the same, up to
    marks, in one grammar or in two:

      n.render = n'.render   iff   n.shape = n'.shape       for nodes of the same sort

    From the right to the left this holds of all trees.  From the left to the right it needs
    that the names and strings in the trees are such as can be written: a name `a, b` would be
    printed as two factors are, and so would a string whose quotes stand in its middle. -/

namespace EbnfKit

/-! ## Nodes in print -/

namespace Node

variable {α : Type}

/-- The canonical text of the node. -/
def render : Node α → Text
  | .expression e => e.render
  | .term t => t.render
  | .factor f => f.render
  | .primary p => p.render

/-- The node with its marks forgotten. -/
def shape : Node α → Node Unit
  | .expression e => .expression e.shape
  | .term t => .term t.shape
  | .factor f => .factor f.shape
  | .primary p => .primary p.shape

/-- By itself in a body, a node has the same text. -/
theorem render_asBody (n : Node α) : n.asBody.render = n.render := by
  cases n with
  | expression e => rfl
  | term t => simp [asBody, render, Expression.render, Term.renderOthers]
  | factor f =>
      simp [asBody, render, Expression.render, Term.renderOthers, Term.render, Factor.renderOthers]
  | primary p =>
      simp [asBody, render, Expression.render, Term.renderOthers, Term.render, Factor.renderOthers,
        Factor.render, Primary.renderException]

/-- Nodes of one sort whose bodies have the same shape have the same shape. -/
theorem shape_eq_of_asBody {n n' : Node α} (hrank : n.rank = n'.rank)
    (h : n.asBody.shape = n'.asBody.shape) : n.shape = n'.shape := by
  cases n with
  | expression e =>
      cases n' with
      | expression e' => exact congrArg expression h
      | _ => cases hrank
  | term t =>
      cases n' with
      | term t' => exact congrArg term (by simpa [asBody] using h)
      | _ => cases hrank
  | factor f =>
      cases n' with
      | factor f' => exact congrArg factor (by simpa [asBody] using h)
      | _ => cases hrank
  | primary p =>
      cases n' with
      | primary p' => exact congrArg primary (by simpa [asBody] using h)
      | _ => cases hrank

/-- Marks do not show in print. -/
theorem render_shape (n : Node α) : n.shape.render = n.render := by
  cases n with
  | expression e => exact EbnfKit.render_shape.expressions e
  | term t => exact EbnfKit.render_shape.terms t
  | factor f => exact EbnfKit.render_shape.factors f
  | primary p => exact EbnfKit.render_shape.primaries p

end Node

theorem Rule.render_shape {α : Type} (r : Rule α) : r.shape.render = r.render := by
  show r.name ++ [' ', '=', ' '] ++ r.body.shape.render ++ [' ', ';'] = r.render
  rw [EbnfKit.render_shape.expressions r.body]
  rfl

/-! ## Trees that were read -/

namespace Grammar

variable {s : Text}

/-- A node that was read can be printed. -/
theorem node_whole {n : Node Span} (hn : n ∈ (parse s).nodes) :
    ∀ l ∈ n.asBody.lexemes, l.Whole ∧ l.Fits := by
  obtain ⟨r, hr, hn⟩ := List.mem_flatMap.mp hn
  obtain ⟨used, hused, hfits⟩ := (parse_amid s).sublist hr
  have hwhole := wholes_of_fits hused hfits
  obtain ⟨as, us, bs, rfl, -, -, hbody⟩ := hfits.derives.body
  obtain ⟨vs, hvs, hnode⟩ := nodes_stand.expressions r.body us hbody n hn
  refine (derives_lasting lasting_fits).expressions n.asBody vs hnode.asBody fun t ht => ?_
  exact hwhole t ((hvs.trans (List.infix_append as us bs)).subset ht)

/-- **Print tells trees apart.**  Rules, expressions, terms, factors and primaries that were read
    from any two texts are printed alike exactly if they are structurally equal. -/
theorem render_eq_iff_shape_eq (s s' : Text) :
    (∀ r ∈ (parse s).rules, ∀ r' ∈ (parse s').rules, r.render = r'.render ↔ r.shape = r'.shape) ∧
    ∀ n ∈ (parse s).nodes, ∀ n' ∈ (parse s').nodes, n.rank = n'.rank →
      (n.render = n'.render ↔ n.shape = n'.shape) := by
  constructor
  · intro r hr r' hr'
    refine ⟨Rule.shape_eq_of_render (parse_whole hr).1 (parse_whole hr').1, fun h => ?_⟩
    rw [← r.render_shape, h, r'.render_shape]
  · intro n hn n' hn' hrank
    refine ⟨fun h => Node.shape_eq_of_asBody hrank ?_, fun h => ?_⟩
    · refine Expression.shape_eq_of_render (node_whole hn) (node_whole hn') ?_
      rw [n.render_asBody, n'.render_asBody, h]
    · rw [← n.render_shape, h, n'.render_shape]

/-- Trees that no text spells can look alike: a name with a comma in it, and two names. -/
example : (Term.mk () (.mk () none (.reference () "a, b".toList) none) []).render
    = (Term.mk () (.mk () none (.reference () ['a']) none)
        [.mk () none (.reference () ['b']) none]).render := rfl

/-- A count with a zero in front, other blanks and a broken rule in front make no difference to a
    factor, and another string does. -/
theorem render_eq_iff_shape_eq_salvaged :
    ∃ n ∈ (parse "a = 2 * 'x' - b | c, 'y' ;".toList).nodes,
      ∃ n' ∈ (parse "= ; q=02*'x'-b;".toList).nodes,
      ∃ m ∈ (parse "a = 2 * 'x' - b | c, 'y' ;".toList).nodes,
        (n.rank, n.mark) = (2, ⟨4, 15⟩) ∧ (n'.rank, n'.mark) = (2, ⟨6, 14⟩) ∧
        (m.rank, m.mark) = (2, ⟨21, 24⟩) ∧ n.render = n'.render ∧ n.shape = n'.shape ∧
        m.render ≠ n'.render ∧ m.shape ≠ n'.shape := by
  have hfactor : ((2, ⟨4, 15⟩, "2 * 'x' - b".toList) : Nat × Span × Text) ∈
      (parse "a = 2 * 'x' - b | c, 'y' ;".toList).nodes.map fun n => (n.rank, n.mark, n.render) := by
    decide +kernel
  have hfactor' : ((2, ⟨6, 14⟩, "2 * 'x' - b".toList) : Nat × Span × Text) ∈
      (parse "= ; q=02*'x'-b;".toList).nodes.map fun n => (n.rank, n.mark, n.render) := by
    decide +kernel
  have hother : ((2, ⟨21, 24⟩, "'y'".toList) : Nat × Span × Text) ∈
      (parse "a = 2 * 'x' - b | c, 'y' ;".toList).nodes.map fun n => (n.rank, n.mark, n.render) := by
    decide +kernel
  obtain ⟨n, hn, heq⟩ := List.mem_map.mp hfactor
  obtain ⟨n', hn', heq'⟩ := List.mem_map.mp hfactor'
  obtain ⟨m, hm, heqm⟩ := List.mem_map.mp hother
  simp only [Prod.mk.injEq] at heq heq' heqm
  obtain ⟨hrank, hmark, hrender⟩ := heq
  obtain ⟨hrank', hmark', hrender'⟩ := heq'
  obtain ⟨hrankm, hmarkm, hrenderm⟩ := heqm
  have hiff := (render_eq_iff_shape_eq _ _).2 n hn n' hn' (hrank.trans hrank'.symm)
  have hiffm := (render_eq_iff_shape_eq _ _).2 m hm n' hn' (hrankm.trans hrank'.symm)
  have hsame : n.render = n'.render := hrender.trans hrender'.symm
  have hdiffer : m.render ≠ n'.render := by
    rw [hrenderm, hrender']
    decide
  exact ⟨n, hn, n', hn', m, hm, Prod.ext hrank hmark, Prod.ext hrank' hmark', Prod.ext hrankm hmarkm,
    hsame, hiff.mp hsame, hdiffer, mt hiffm.mpr hdiffer⟩

end Grammar

end EbnfKit
