import EbnfKit.Proofs.Derivation

/-! # Nodes — every part of a tree derives a stretch of the pieces

    Whatever stands in a tree is a sentence of its own sort:

      ts derives e,  n ∈ e.nodes   imply   us derives n for some stretch us of ts,
                                           n.nesting ≤ e.nesting

    A node of any sort can be wrapped up as the only thing in an expression (`asBody`), which
    derives the same pieces. -/

namespace EbnfKit

variable {τ α β : Type} {d : Reading τ α}

namespace Node

/-- The mark of the node. -/
def mark : Node α → α
  | .expression e => e.mark
  | .term t => t.mark
  | .factor f => f.mark
  | .primary p => p.mark

/-- The sort of the node, counted from the outside in. -/
def rank : Node α → Nat
  | .expression _ => 0
  | .term _ => 1
  | .factor _ => 2
  | .primary _ => 3

/-- What uses a name is a reference to it. -/
theorem use?_eq_some_iff {n : Node α} {use : Text × α} :
    n.use? = some use ↔ n = .primary (.reference use.2 use.1) := by
  constructor
  · intro h
    unfold use? at h
    split at h
    · rw [← Option.some.inj h]
    · cases h
  · rintro rfl
    rfl

/-- How deep brackets are stacked in the node. -/
def nesting : Node α → Nat
  | .expression e => e.nesting
  | .term t => t.nesting
  | .factor f => f.nesting
  | .primary p => p.nesting

/-- The pieces derive the node. -/
def Derives (d : Reading τ α) (ts : List τ) : Node α → Prop
  | .expression e => Expression.Derives d ts e
  | .term t => Term.Derives d ts t
  | .factor f => Factor.Derives d ts f
  | .primary p => Primary.Derives d ts p

/-- The node as the body of a rule: the only alternative, factor or primary there is. -/
def asBody : Node α → Expression α
  | .expression e => e
  | .term t => .mk t.mark t []
  | .factor f => .mk f.mark (.mk f.mark f []) []
  | .primary p => .mk p.mark (.mk p.mark (.mk p.mark none p none) []) []

end Node

/-! ## Stretches -/

/-- A primary of a factor is a stretch of the pieces of the factor. -/
theorem Factor.Derives.stretch {ts : List τ} {m : α} {n : Option Nat} {p : Primary α}
    {x : Option (Primary α)} (h : Factor.Derives d ts (.mk m n p x)) {q : Primary α}
    (hq : q ∈ p :: x.toList) : ∃ us, us <:+: ts ∧ Primary.Derives d us q := by
  cases h with
  | @mk cs ps xs _ _ _ _ _ hprimary hsigned _ =>
      rcases List.mem_cons.mp hq with rfl | hq
      · exact ⟨ps, List.infix_append cs ps xs, hprimary⟩
      · cases hsigned with
        | none => cases hq
        | @some s ws _ _ hexception =>
            rw [Option.toList_some, List.mem_singleton] at hq
            rw [hq]
            exact ⟨ws, ⟨cs ++ ps ++ [s], [], by simp⟩, hexception⟩

/-- A node in one of several items derives a stretch of the pieces of them all, if in each
    item it derives a stretch of the pieces of that item. -/
theorem Separated.stand {separates : τ → Prop} {item : List τ → β → Prop} {nodes : β → List (Node α)}
    {ts : List τ} {xs : List β} (h : Separated separates item ts xs)
    (ih : ∀ x ∈ xs, ∀ us, item us x → ∀ n ∈ nodes x, ∃ vs, vs <:+: us ∧ n.Derives d vs) :
    ∀ n ∈ xs.flatMap nodes, ∃ us, us <:+: ts ∧ n.Derives d us := by
  intro n hn
  obtain ⟨x, hx, hn⟩ := List.mem_flatMap.mp hn
  obtain ⟨us, hus, hderives⟩ := h.stretch hx
  obtain ⟨vs, hvs, hnode⟩ := ih x hx us hderives n hn
  exact ⟨vs, hvs.trans hus, hnode⟩

/-- **Every node derives a stretch** of what the tree derives. -/
theorem nodes_stand :
    Hereditary
      (fun e => ∀ ts, Expression.Derives d ts e → ∀ n ∈ e.nodes, ∃ us, us <:+: ts ∧ n.Derives d us)
      (fun t => ∀ ts, Term.Derives d ts t → ∀ n ∈ t.nodes, ∃ us, us <:+: ts ∧ n.Derives d us)
      (fun f => ∀ ts, Factor.Derives d ts f → ∀ n ∈ f.nodes, ∃ us, us <:+: ts ∧ n.Derives d us)
      (fun p => ∀ ts, Primary.Derives d ts p → ∀ n ∈ p.nodes, ∃ us, us <:+: ts ∧ n.Derives d us)
    where
  expression := by
    intro m t us ih ts h n hn
    rw [Expression.nodes_mk] at hn
    rcases List.mem_cons.mp hn with rfl | hn
    · exact ⟨ts, List.infix_refl ts, h⟩
    · cases h with
      | mk hsep _ => exact hsep.stand ih n hn
  term := by
    intro m f gs ih ts h n hn
    rw [Term.nodes_mk] at hn
    rcases List.mem_cons.mp hn with rfl | hn
    · exact ⟨ts, List.infix_refl ts, h⟩
    · cases h with
      | mk hsep _ => exact hsep.stand ih n hn
  factor := by
    intro m c p x hp hx ts h n hn
    rw [Factor.nodes_mk] at hn
    rcases List.mem_cons.mp hn with rfl | hn
    · exact ⟨ts, List.infix_refl ts, h⟩
    · rw [← List.flatMap_cons] at hn
      obtain ⟨q, hq, hnode⟩ := List.mem_flatMap.mp hn
      have hbelow : ∀ ts, Primary.Derives d ts q → ∃ us, us <:+: ts ∧ n.Derives d us := by
        intro ts hts
        rcases List.mem_cons.mp hq with rfl | hq
        · exact hp ts hts n hnode
        · exact hx q (Option.mem_toList.mp hq) ts hts n hnode
      obtain ⟨vs, hvs, hderives⟩ := h.stretch hq
      obtain ⟨ws, hws, hnode⟩ := hbelow vs hderives
      exact ⟨ws, hws.trans hvs, hnode⟩
  reference := by
    intro m s ts h n hn
    rw [List.mem_singleton.mp hn]
    exact ⟨ts, List.infix_refl ts, h⟩
  literal := by
    intro m s q ts h n hn
    rw [List.mem_singleton.mp hn]
    exact ⟨ts, List.infix_refl ts, h⟩
  bracketed := by
    intro m b e ih ts h n hn
    rw [Primary.nodes] at hn
    rcases List.mem_cons.mp hn with rfl | hn
    · exact ⟨ts, List.infix_refl ts, h⟩
    · cases h with
      | @bracketed o us c _ _ _ _ he _ =>
          obtain ⟨ws, hws, hnode⟩ := ih us he n hn
          exact ⟨ws, hws.trans (List.infix_append [o] us [c]), hnode⟩

/-- No node is deeper than the tree that it stands in. -/
theorem nesting_node :
    Hereditary (fun e : Expression α => ∀ n ∈ e.nodes, n.nesting ≤ e.nesting)
      (fun t => ∀ n ∈ t.nodes, n.nesting ≤ t.nesting)
      (fun f => ∀ n ∈ f.nodes, n.nesting ≤ f.nesting)
      (fun p => ∀ n ∈ p.nodes, n.nesting ≤ p.nesting) where
  expression := by
    intro m t ts ih n hn
    rw [Expression.nodes_mk] at hn
    rcases List.mem_cons.mp hn with rfl | hn
    · exact Nat.le_refl _
    · obtain ⟨u, hu, hn⟩ := List.mem_flatMap.mp hn
      exact Nat.le_trans (ih u hu n hn) (Expression.nesting_le_iff.mp (Nat.le_refl _) u hu)
  term := by
    intro m f fs ih n hn
    rw [Term.nodes_mk] at hn
    rcases List.mem_cons.mp hn with rfl | hn
    · exact Nat.le_refl _
    · obtain ⟨g, hg, hn⟩ := List.mem_flatMap.mp hn
      exact Nat.le_trans (ih g hg n hn) (Term.nesting_le_iff.mp (Nat.le_refl _) g hg)
  factor := by
    intro m c p x hp hx n hn
    obtain ⟨hple, hxle⟩ := Factor.nesting_le_iff.mp (Nat.le_refl (Factor.mk m c p x).nesting)
    rw [Factor.nodes_mk] at hn
    rcases List.mem_cons.mp hn with rfl | hn
    · exact Nat.le_refl _
    rcases List.mem_append.mp hn with hn | hn
    · exact Nat.le_trans (hp n hn) hple
    · obtain ⟨q, hq, hn⟩ := List.mem_flatMap.mp hn
      have hq := Option.mem_toList.mp hq
      exact Nat.le_trans (hx q hq n hn) (hxle q hq)
  reference := by
    intro m s n hn
    rw [List.mem_singleton.mp hn]
    exact Nat.le_refl _
  literal := by
    intro m s q n hn
    rw [List.mem_singleton.mp hn]
    exact Nat.le_refl _
  bracketed := by
    intro m b e ih n hn
    rw [Primary.nodes] at hn
    rcases List.mem_cons.mp hn with rfl | hn
    · exact Nat.le_refl _
    · exact Nat.le_trans (ih n hn) (Nat.le_succ _)

/-! ## Bodies of one node -/

/-- A node is marked as its reading says. -/
theorem Node.Derives.marks {ts : List τ} {n : Node α} (h : n.Derives d ts) : d.marks ts n.mark := by
  cases n with
  | expression e =>
      cases h with
      | mk _ hm => exact hm
  | term t =>
      cases h with
      | mk _ hm => exact hm
  | factor f =>
      cases h with
      | mk _ _ _ hm => exact hm
  | primary p =>
      cases h with
      | reference _ hm => exact hm
      | literal _ _ hm => exact hm
      | bracketed _ _ hm => exact hm

theorem Node.Derives.ne_nil {ts : List τ} {n : Node α} (h : n.Derives d ts) : ts ≠ [] := by
  cases n with
  | expression e => exact derives_ne_nil.expressions e ts h
  | term t => exact derives_ne_nil.terms t ts h
  | factor f => exact derives_ne_nil.factors f ts h
  | primary p => exact derives_ne_nil.primaries p ts h

/-- Wrapped up as a body, a node derives the same pieces. -/
theorem Node.Derives.asBody {ts : List τ} {n : Node α} (h : n.Derives d ts) :
    Expression.Derives d ts n.asBody := by
  have hm := h.marks
  cases n with
  | expression e => exact h
  | term t => exact .mk (.one h) hm
  | factor f => exact .mk (.one (.mk (.one h) hm)) hm
  | primary p =>
      have hts : [] ++ ts ++ [] = ts := by rw [List.nil_append, List.append_nil]
      have hfactor : Factor.Derives d ([] ++ ts ++ []) (.mk p.mark none p none) :=
        .mk .none h .none (by rw [hts]; exact hm)
      rw [hts] at hfactor
      exact .mk (.one (.mk (.one hfactor) hm)) hm

theorem Node.nesting_asBody (n : Node α) : n.asBody.nesting = n.nesting := by
  cases n with
  | expression e => rfl
  | term t => exact Nat.max_zero _
  | factor f => exact (Nat.max_zero _).trans (Nat.max_zero _)
  | primary p => exact (Nat.max_zero _).trans ((Nat.max_zero _).trans (Nat.max_zero _))

end EbnfKit
