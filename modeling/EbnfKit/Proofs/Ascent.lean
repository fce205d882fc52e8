import EbnfKit.Proofs.Clean
import EbnfKit.Proofs.Connection

/-! # Ascent — the nodes of a sort start one behind the other

    Nodes of all sorts have children, and the children of a node that was read stand in it one
    behind the other, those in brackets behind the opening one.  So where one node of a sort
    comes before another in source order it starts before it:

      n before n',  n and n' of one sort   imply   n.mark.start < n'.mark.start

    Every node but the body of a rule is the child of one node, once.  So the children of
    different nodes, where they are of one sort, start at different places too:

      x.nodes   is   x and the children of x.nodes,   in some order -/

namespace EbnfKit

/-! ## Nodes and their children -/

namespace Node

variable {α : Type}

/-- The node and all nodes below it. -/
def nodes : Node α → List (Node α)
  | .expression e => e.nodes
  | .term t => t.nodes
  | .factor f => f.nodes
  | .primary p => p.nodes

/-- The nodes right below the node, in source order. -/
def children : Node α → List (Node α)
  | .expression e => e.alternatives.map .term
  | .term t => t.factors.map .factor
  | .factor f => f.operands.map .primary
  | .primary p => p.inner?.toList.map .expression

theorem nodes_eq (n : Node α) : n.nodes = n :: n.children.flatMap nodes := by
  cases n with
  | expression e =>
      obtain ⟨m, t, ts⟩ := e
      rw [nodes, Expression.nodes_mk, children, List.flatMap_map]
      rfl
  | term t =>
      obtain ⟨m, f, fs⟩ := t
      rw [nodes, Term.nodes_mk, children, List.flatMap_map]
      rfl
  | factor f =>
      obtain ⟨m, c, p, x⟩ := f
      rw [nodes, Factor.nodes_mk, children, List.flatMap_map, Factor.operands, List.flatMap_cons]
      rfl
  | primary p =>
      cases p with
      | reference m s => rfl
      | literal m s q => rfl
      | bracketed m b e =>
          rw [nodes, Primary.nodes, children, List.flatMap_map]
          exact congrArg _ (List.append_nil e.nodes).symm

/-- What a node inherits from its children holds of every node. -/
theorem induct {motive : Node α → Prop}
    (step : ∀ n, (∀ c ∈ n.children, motive c) → motive n) : ∀ n, motive n := by
  have h : Hereditary (fun e => motive (.expression e)) (fun t => motive (.term t))
      (fun f => motive (.factor f)) (fun p => motive (.primary p)) :=
    { expression := fun m t ts ih => step _ (List.forall_mem_map.mpr ih)
      term := fun m f fs ih => step _ (List.forall_mem_map.mpr ih)
      factor := fun m c p x hp hx => step _ (List.forall_mem_map.mpr
        (List.forall_mem_cons.mpr ⟨hp, fun q hq => hx q (Option.mem_toList.mp hq)⟩))
      reference := fun m s => step _ (List.forall_mem_nil _)
      literal := fun m s q => step _ (List.forall_mem_nil _)
      bracketed := fun m b e he => step _ (List.forall_mem_singleton.mpr he) }
  intro n
  cases n with
  | expression e => exact h.expressions e
  | term t => exact h.terms t
  | factor f => exact h.factors f
  | primary p => exact h.primaries p

/-- Below a node is what is below one of its children. -/
theorem mem_nodes_iff {n x : Node α} : n ∈ x.nodes ↔ n = x ∨ ∃ c ∈ x.children, n ∈ c.nodes := by
  rw [nodes_eq, List.mem_cons, List.mem_flatMap]

/-- Every node but the one on top is the child of one node, once. -/
theorem nodes_perm (x : Node α) : x.nodes.Perm (x :: x.nodes.flatMap children) := by
  induction x using induct with
  | step x ih =>
      rw [nodes_eq, List.flatMap_cons, List.flatMap_assoc]
      refine List.Perm.cons x ?_
      have hsplit := List.map_append_flatMap_perm x.children id fun c => c.nodes.flatMap children
      rw [List.map_id] at hsplit
      exact (List.Perm.flatMap_left x.children ih).trans hsplit.symm

end Node

/-! ## Nodes along a text -/

/-- The children of the node stand in it one behind the other, those in brackets behind the
    opening one. -/
structure Node.Nests (n : Node Span) : Prop where
  forward : n.mark.start < n.mark.stop
  within : ∀ c ∈ n.children, n.mark.start ≤ c.mark.start ∧ c.mark.stop ≤ n.mark.stop
  inside : ∀ c ∈ n.children, c.rank ≤ n.rank → n.mark.start < c.mark.start
  apart : n.children.Pairwise fun c c' => c.mark.stop ≤ c'.mark.start

/-- The operands of a factor stand in it, one behind the other. -/
theorem Factor.Derives.operands {ts : List Token} (hts : Scanned ts) {f : Factor Span}
    (h : Factor.Derives .placed ts f) :
    (∀ p ∈ f.operands, f.mark.start ≤ p.mark.start ∧ p.mark.stop ≤ f.mark.stop) ∧
      f.operands.Pairwise fun p q => p.mark.stop ≤ q.mark.start := by
  obtain ⟨m, c, p, x⟩ := f
  have hmark : m = Span.over ts := (Parser.derives_mark.factors _ ts h).2
  constructor
  · intro q hq
    obtain ⟨us, hus, hderives⟩ := h.stretch hq
    obtain ⟨hne, hover⟩ := Parser.derives_mark.primaries q us hderives
    rw [hover]
    show m.start ≤ _ ∧ _ ≤ m.stop
    rw [hmark]
    exact Span.over_sublist hts hus.sublist hne
  · refine List.Pairwise.cons (fun q hq => ?_) ?_
    · cases h with
      | @mk cs ps xs _ _ _ _ _ hprimary hsigned _ =>
          cases hsigned with
          | none => cases hq
          | @some s ws y _ hexception =>
              obtain rfl : q = y := List.mem_singleton.mp hq
              obtain ⟨hne, hover⟩ := Parser.derives_mark.primaries p ps hprimary
              obtain ⟨hne', hover'⟩ := Parser.derives_mark.primaries q ws hexception
              show p.mark.stop ≤ _
              rw [hover, hover']
              rw [List.append_assoc] at hts
              exact Span.over_stop_le_start
                (hts.right.sublist ((List.sublist_cons_self s ws).append_left ps)) hne hne'
    · cases x with
      | none => exact List.Pairwise.nil
      | some q => exact List.pairwise_singleton _ _

/-- **A node that was read nests.** -/
theorem Node.Derives.nests {ts : List Token} (hts : Scanned ts) {n : Node Span}
    (h : n.Derives .placed ts) : n.Nests := by
  have hmark : n.mark = Span.over ts := h.marks
  have hforward : n.mark.start < n.mark.stop := by
    rw [hmark]
    exact Span.over_forward hts h.ne_nil
  cases n with
  | expression e =>
      cases h with
      | @mk _ m t us hsep _ =>
          have hitem := fun us t (ht : Term.Derives .placed us t) => Parser.derives_mark.terms t us ht
          refine ⟨hforward, List.forall_mem_map.mpr fun u hu => ?_,
            List.forall_mem_map.mpr fun u _ hrank => absurd hrank (by decide : ¬1 ≤ 0), ?_⟩
          · rw [hmark]
            exact Parser.separated_bounds hitem hts hsep hu
          · exact List.pairwise_map.mpr (Parser.separated_apart hitem hts hsep)
  | term t =>
      cases h with
      | @mk _ m f gs hsep _ =>
          have hitem :=
            fun us f (hf : Factor.Derives .placed us f) => Parser.derives_mark.factors f us hf
          refine ⟨hforward, List.forall_mem_map.mpr fun g hg => ?_,
            List.forall_mem_map.mpr fun g _ hrank => absurd hrank (by decide : ¬2 ≤ 1), ?_⟩
          · rw [hmark]
            exact Parser.separated_bounds hitem hts hsep hg
          · exact List.pairwise_map.mpr (Parser.separated_apart hitem hts hsep)
  | factor f =>
      obtain ⟨hwithin, hapart⟩ := Factor.Derives.operands hts h
      exact ⟨hforward, List.forall_mem_map.mpr hwithin,
        List.forall_mem_map.mpr fun p _ hrank => absurd hrank (by decide : ¬3 ≤ 2),
        List.pairwise_map.mpr hapart⟩
  | primary p =>
      cases h with
      | reference _ _ =>
          exact ⟨hforward, List.forall_mem_nil _, List.forall_mem_nil _, List.Pairwise.nil⟩
      | literal _ _ _ =>
          exact ⟨hforward, List.forall_mem_nil _, List.forall_mem_nil _, List.Pairwise.nil⟩
      | @bracketed o us c m b e _ he _ =>
          obtain ⟨hne, hover⟩ := Parser.derives_mark.expressions e us he
          have hscanned : Scanned ([o] ++ us) := hts.left
          have hbehind := Span.over_stop_le_start hscanned (List.cons_ne_nil o []) hne
          have hopening := Span.over_forward hscanned.left (List.cons_ne_nil o [])
          have hin := Span.over_sublist hts (List.infix_append [o] us [c]).sublist hne
          rw [← hmark, ← hover] at hin
          have hstart : (Node.primary (.bracketed m b e)).mark.start < e.mark.start := by
            rw [hmark, hover]
            exact Nat.lt_of_lt_of_le hopening hbehind
          exact ⟨hforward, List.forall_mem_singleton.mpr hin,
            List.forall_mem_singleton.mpr fun _ => hstart, List.pairwise_singleton _ _⟩

namespace Node

variable {x : Node Span}

/-- `n'` does not start before `n`, and behind it unless it is of a sort further in. -/
def Before (n n' : Node Span) : Prop :=
  n.mark.start ≤ n'.mark.start ∧ (n'.rank ≤ n.rank → n.mark.start < n'.mark.start)

/-- What is below a node stands in it. -/
theorem bounds_of_nests (h : ∀ n ∈ x.nodes, n.Nests) :
    ∀ n ∈ x.nodes, x.mark.start ≤ n.mark.start ∧ n.mark.stop ≤ x.mark.stop := by
  induction x using induct with
  | step x ih =>
      intro n hn
      rcases mem_nodes_iff.mp hn with rfl | ⟨c, hc, hn⟩
      · exact ⟨Nat.le_refl _, Nat.le_refl _⟩
      · have hwithin := (h x (mem_nodes_iff.mpr (Or.inl rfl))).within c hc
        have hbelow := ih c hc (fun n hn => h n (mem_nodes_iff.mpr (Or.inr ⟨c, hc, hn⟩))) n hn
        omega

/-- **Source order is the order of starts**, sort by sort. -/
theorem nodes_before (h : ∀ n ∈ x.nodes, n.Nests) : x.nodes.Pairwise Before := by
  induction x using induct with
  | step x ih =>
      have hx := h x (mem_nodes_iff.mpr (Or.inl rfl))
      have hbelow : ∀ c ∈ x.children, ∀ n ∈ c.nodes, n.Nests :=
        fun c hc n hn => h n (mem_nodes_iff.mpr (Or.inr ⟨c, hc, hn⟩))
      rw [nodes_eq]
      refine List.Pairwise.cons (fun n hn => ?_) (List.pairwise_flatMap.mpr ⟨?_, ?_⟩)
      · -- a child of a sort further in starts with the node at most; all below it follow the child
        obtain ⟨c, hc, hn⟩ := List.mem_flatMap.mp hn
        obtain ⟨hstart, -⟩ := hx.within c hc
        have hbefore := ih c hc (hbelow c hc)
        rw [nodes_eq] at hn hbefore
        rcases List.mem_cons.mp hn with rfl | hn
        · exact ⟨hstart, hx.inside n hc⟩
        · obtain ⟨hle, hlt⟩ := (List.pairwise_cons.mp hbefore).1 n hn
          refine ⟨Nat.le_trans hstart hle, fun hrank => ?_⟩
          by_cases hsort : c.rank ≤ x.rank
          · exact Nat.lt_of_lt_of_le (hx.inside c hc hsort) hle
          · exact Nat.lt_of_le_of_lt hstart (hlt (by omega))
      · exact fun c hc => ih c hc (hbelow c hc)
      · refine hx.apart.imp_of_mem fun {c c'} hc hc' hapart n hn n' hn' => ?_
        have hforward := (hbelow c hc n hn).forward
        have hin := bounds_of_nests (hbelow c hc) n hn
        have hin' := bounds_of_nests (hbelow c' hc') n' hn'
        exact ⟨by omega, fun _ => by omega⟩

/-- The nodes are of different sorts or start at different places. -/
def Apart (n n' : Node Span) : Prop :=
  n.rank = n'.rank → n.mark.start ≠ n'.mark.start

theorem Apart.symm {n n' : Node Span} (h : n.Apart n') : n'.Apart n :=
  fun hrank hstart => h hrank.symm hstart.symm

theorem Before.apart {n n' : Node Span} (h : n.Before n') : n.Apart n' :=
  fun hrank => Nat.ne_of_lt (h.2 (Nat.le_of_eq hrank.symm))

end Node

/-! ## Nodes of a grammar -/

namespace Grammar

variable {s : Text}

theorem nests_of_mem {n : Node Span} (hn : n ∈ (parse s).nodes) : n.Nests := by
  obtain ⟨us, hus, hnode⟩ := node_derives hn
  exact hnode.nests ((significant_scanned s).sublist hus.sublist)

/-- The nodes of a rule nest, and stand in it. -/
theorem body_nests {r : Rule Span} (hr : r ∈ (parse s).rules) :
    (∀ n ∈ r.body.nodes, n.Nests) ∧
      ∀ n ∈ r.body.nodes, r.mark.start ≤ n.mark.start ∧ n.mark.stop ≤ r.mark.stop := by
  have hnests : ∀ n ∈ r.body.nodes, n.Nests :=
    fun n hn => nests_of_mem (List.mem_flatMap.mpr ⟨r, hr, hn⟩)
  refine ⟨hnests, fun n hn => ?_⟩
  obtain ⟨ts, hts, hfits⟩ := (parse_amid s).sublist hr
  have hmark := hfits.derives.mark_eq
  obtain ⟨as, us, bs, rfl, -, -, hbody⟩ := hfits.derives.body
  obtain ⟨hne, hover⟩ := Parser.derives_mark.expressions r.body us hbody
  have hin := Span.over_sublist ((significant_scanned s).sublist hts)
    (List.infix_append as us bs).sublist hne
  have hbelow := @Node.bounds_of_nests (.expression r.body) hnests n hn
  rw [← hmark, ← hover] at hin
  exact ⟨Nat.le_trans hin.1 hbelow.1, Nat.le_trans hbelow.2 hin.2⟩

/-- **The nodes of a sort start one behind the other**, in all rules. -/
theorem nodes_before (s : Text) : (parse s).nodes.Pairwise Node.Before := by
  refine List.pairwise_flatMap.mpr ⟨fun r hr => ?_, ?_⟩
  · exact @Node.nodes_before (.expression r.body) (body_nests hr).1
  · refine (rules_apart s).imp_of_mem fun {r r'} hr hr' hrules n hn n' hn' => ?_
    obtain ⟨hnests, hin⟩ := body_nests hr
    have hforward := (hnests n hn).forward
    have hstop := (hin n hn).2
    have hstart := ((body_nests hr').2 n' hn').1
    exact ⟨by omega, fun _ => by omega⟩

/-- Nodes of one sort with the same mark are the same. -/
theorem node_of_mark {n n' : Node Span} (hn : n ∈ (parse s).nodes) (hn' : n' ∈ (parse s).nodes)
    (hrank : n.rank = n'.rank) (hmark : n.mark = n'.mark) : n = n' := by
  have hstart := congrArg Span.start hmark
  rcases pairwise_cases ((nodes_before s).imp Node.Before.apart) hn hn' with hsame | hapart | hapart
  · exact hsame
  · exact absurd hstart (hapart hrank)
  · exact absurd hstart.symm (hapart hrank.symm)

/-- Every node but the bodies of rules is the child of one node, once. -/
theorem nodes_perm (g : Grammar) :
    g.nodes.Perm (g.rules.map (fun r => .expression r.body) ++ g.nodes.flatMap Node.children) := by
  have hrules : ∀ r ∈ g.rules,
      r.body.nodes.Perm (.expression r.body :: r.body.nodes.flatMap Node.children) :=
    fun r _ => (Node.expression r.body).nodes_perm
  rw [nodes, List.flatMap_assoc]
  exact (List.Perm.flatMap_left g.rules hrules).trans (List.map_append_flatMap_perm _ _ _).symm

/-- Children of one sort start at different places, whichever nodes they are children of. -/
theorem children_apart (s : Text) :
    ((parse s).nodes.flatMap Node.children).Pairwise Node.Apart := by
  have hnodes := (nodes_before s).imp Node.Before.apart
  rw [(nodes_perm (parse s)).pairwise_iff fun hapart => hapart.symm] at hnodes
  exact (List.pairwise_append.mp hnodes).2.1

end Grammar

end EbnfKit
