import EbnfKit.Proofs.Ascent
import EbnfKit.Proofs.Dangling

/-! # Lookup — one place for each span

    A diagnostic tells where it is by its span only, and a fix for it is found by the span.
    No two groups and no two runs have the same one: the groups of a factor are its operands,
    and a run starts where a factor of its term does.  So the search finds what was reported,
    also where it looks at nothing but the rules and terms around the span:

      reported at p          iff   found at p
      a.span = b.span,  a and b of one kind   imply   a and b are the same report -/

namespace EbnfKit

/-! ## Groups and runs among the children of nodes -/

/-- A group that can be dropped is an operand of its factor. -/
theorem RedundantGroup.exists_operand {f : Factor Span} {q : RedundantGroup} (hq : q ∈ ofFactor f) :
    ∃ m m', .bracketed q.span .group (.mk m (.mk m' q.inner []) []) ∈ f.operands := by
  obtain ⟨m, c, p, x⟩ := f
  obtain ⟨plain, p', hp', hq⟩ := mem_ofFactor hq
  obtain ⟨-, m', m'', rfl⟩ := of_ofPrimary? hq
  exact ⟨m', m'', hp'⟩

/-- The group of what is repeated stands before that of what is excluded. -/
theorem RedundantGroup.ofFactor_pairwise {f : Factor Span}
    (h : f.operands.Pairwise fun p p' => p.mark.start ≠ p'.mark.start) :
    (ofFactor f).Pairwise fun q q' => q.span ≠ q'.span := by
  obtain ⟨m, c, p, x⟩ := f
  have hone : ∀ o : Option RedundantGroup, o.toList.Pairwise fun q q' => q.span ≠ q'.span := by
    intro o
    cases o with
    | none => exact List.Pairwise.nil
    | some q => exact List.pairwise_singleton _ _
  refine List.pairwise_append.mpr ⟨hone _, hone _, fun q hq q' hq' => ?_⟩
  obtain ⟨y, rfl, hy⟩ := Option.bind_eq_some_iff.mp (Option.mem_toList.mp hq')
  obtain ⟨-, m₁, m₂, rfl⟩ := of_ofPrimary? (Option.mem_toList.mp hq)
  obtain ⟨-, m₃, m₄, rfl⟩ := of_ofPrimary? hy
  have hstart := (List.pairwise_cons.mp h).1 _ List.mem_cons_self
  exact fun heq => hstart (congrArg Span.start heq)

namespace Run

/-- Each block begins with a factor of its own. -/
theorem heads_sublist (fs : List (Factor Span)) : ((blocks fs).map Prod.fst).Sublist fs := by
  have hall : ∀ bs : List (Factor Span × List (Factor Span)),
      (bs.map Prod.fst).Sublist (bs.flatMap members) := by
    intro bs
    induction bs with
    | nil => exact List.Sublist.refl _
    | cons b bs ih => exact (ih.trans (List.sublist_append_right b.2 _)).cons_cons b.1
  have hheads := hall (blocks fs)
  rwa [flatMap_members_blocks] at hheads

variable {fs : List (Factor Span)} (h : fs.Pairwise fun f g => f.mark.start < g.mark.start)

include h

/-- A run starts where its first factor does. -/
theorem start_of_block {b : Factor Span × List (Factor Span)} (hb : b ∈ blocks fs) {r : Run}
    (hr : ofBlock? b = some r) : r.span.start = b.1.mark.start := by
  obtain ⟨-, -, -, hspan⟩ := ofBlock?_eq_some_iff.mp hr
  have hmembers : (members b).Sublist fs := by
    rw [← flatMap_members_blocks fs, List.flatMap_def]
    exact List.sublist_flatten_of_mem (List.mem_map_of_mem hb)
  have hlast : b.1.mark.start ≤ (b.2.getLast?.getD b.1).mark.start := by
    cases hl : b.2.getLast? with
    | none => exact Nat.le_refl _
    | some g =>
        have hlater := (List.pairwise_cons.mp (h.sublist hmembers)).1 g (List.mem_of_getLast? hl)
        exact Nat.le_of_lt hlater
  rw [hspan]
  exact Nat.min_eq_left hlast

theorem exists_factor {r : Run} (hr : r ∈ (blocks fs).filterMap ofBlock?) :
    ∃ f ∈ fs, f.mark.start = r.span.start := by
  obtain ⟨b, hb, hr⟩ := List.mem_filterMap.mp hr
  exact ⟨b.1, (heads_sublist fs).subset (List.mem_map_of_mem hb), (start_of_block h hb hr).symm⟩

/-- The runs of a term start at different places. -/
theorem blocks_pairwise :
    ((blocks fs).filterMap ofBlock?).Pairwise fun r r' => r.span ≠ r'.span := by
  have hheads := List.pairwise_map.mp (h.sublist (heads_sublist fs))
  refine List.pairwise_filterMap.mpr (hheads.imp_of_mem fun {b b'} hb hb' hlt r hr r' hr' heq => ?_)
  rw [← start_of_block h hb hr, ← start_of_block h hb' hr', heq] at hlt
  exact absurd hlt (Nat.lt_irrefl _)

end Run

namespace Grammar

variable {s : Text}

theorem mem_nodes_of_child {g : Grammar} {n c : Node Span} (hn : n ∈ g.nodes) (hc : c ∈ n.children) :
    c ∈ g.nodes :=
  (nodes_perm g).mem_iff.mpr (List.mem_append_right _ (List.mem_flatMap.mpr ⟨n, hn, hc⟩))

/-- The children of a node start one behind the other. -/
theorem children_ascend {n : Node Span} (hn : n ∈ (parse s).nodes) :
    n.children.Pairwise fun c c' => c.mark.start < c'.mark.start := by
  refine (nests_of_mem hn).apart.imp_of_mem fun hc _ hapart => ?_
  have := (nests_of_mem (mem_nodes_of_child hn hc)).forward
  omega

theorem factors_ascend {t : Term Span} (ht : .term t ∈ (parse s).nodes) :
    t.factors.Pairwise fun f g => f.mark.start < g.mark.start := by
  have hchildren := children_ascend ht
  rw [Node.children, List.pairwise_map] at hchildren
  exact hchildren

/-- What goes by the starts of children of one sort, and is found at most once for each node,
    is found once. -/
theorem pairwise_of_children {β γ : Type} {rank : Nat}
    {sort? : Node Span → Option γ} {found : γ → List β} {span : β → Span}
    (hchild : ∀ n ∈ (parse s).nodes, ∀ x ∈ sort? n, ∀ b ∈ found x,
      ∃ c ∈ n.children, c.rank = rank ∧ c.mark.start = (span b).start)
    (hone : ∀ n ∈ (parse s).nodes, ∀ x ∈ sort? n, (found x).Pairwise fun b b' => span b ≠ span b') :
    (((parse s).nodes.filterMap sort?).flatMap found).Pairwise fun b b' => span b ≠ span b' := by
  have hchildren := (List.pairwise_flatMap.mp (children_apart s)).2
  refine List.pairwise_flatMap.mpr ⟨fun x hx => ?_, ?_⟩
  · obtain ⟨n, hn, hx⟩ := List.mem_filterMap.mp hx
    exact hone n hn x hx
  · refine List.pairwise_filterMap.mpr (hchildren.imp_of_mem ?_)
    intro n n' hn hn' hapart x hx x' hx' b hb b' hb' heq
    obtain ⟨c, hc, hrank, hstart⟩ := hchild n hn x hx b hb
    obtain ⟨c', hc', hrank', hstart'⟩ := hchild n' hn' x' hx' b' hb'
    exact hapart c hc c' hc' (hrank.trans hrank'.symm) (by rw [hstart, hstart', heq])

/-- No two groups that can be dropped have the same span. -/
theorem redundantGroups_pairwise (s : Text) :
    (parse s).redundantGroups.Pairwise fun q q' => q.span ≠ q'.span := by
  have hfactor : ∀ n : Node Span, ∀ f ∈ n.factor?, n = .factor f := by
    intro n f hf
    cases n <;> cases hf
    rfl
  refine @pairwise_of_children s _ _ 3 _ _ _ (fun n hn f hf q hq => ?_) fun n hn f hf => ?_
  · obtain ⟨m, m', hp⟩ := RedundantGroup.exists_operand hq
    rw [hfactor n f hf]
    exact ⟨_, List.mem_map_of_mem hp, rfl, rfl⟩
  · rw [hfactor n f hf] at hn
    exact RedundantGroup.ofFactor_pairwise
      ((List.pairwise_map.mp (children_ascend hn)).imp fun hlt => Nat.ne_of_lt hlt)

/-- No two runs have the same span. -/
theorem repeatedRuns_pairwise (s : Text) :
    (parse s).repeatedRuns.Pairwise fun r r' => r.span ≠ r'.span := by
  have hterm : ∀ n : Node Span, ∀ t ∈ n.term?, n = .term t := by
    intro n t ht
    cases n <;> cases ht
    rfl
  refine @pairwise_of_children s _ _ 2 _ _ _ (fun n hn t ht r hr => ?_) fun n hn t ht => ?_
  · rw [hterm n t ht] at hn ⊢
    obtain ⟨f, hf, hstart⟩ := Run.exists_factor (factors_ascend hn) hr
    exact ⟨_, List.mem_map_of_mem hf, rfl, hstart⟩
  · rw [hterm n t ht] at hn
    exact Run.blocks_pairwise (factors_ascend hn)

/-! ## What the checks report -/

/-- What nodes of one sort have as their own mark is found once. -/
theorem pairwise_of_nodes {β : Type} {rank : Nat}
    {found? : Node Span → Option β} {span : β → Span}
    (hfound : ∀ n, ∀ b ∈ found? n, n.rank = rank ∧ n.mark = span b) :
    ((parse s).nodes.filterMap found?).Pairwise fun b b' => span b ≠ span b' := by
  refine List.pairwise_filterMap.mpr ((nodes_before s).imp fun {n n'} hbefore b hb b' hb' heq => ?_)
  obtain ⟨hrank, hmark⟩ := hfound n b hb
  obtain ⟨hrank', hmark'⟩ := hfound n' b' hb'
  refine hbefore.apart (hrank.trans hrank'.symm) ?_
  rw [hmark, hmark', heq]

/-- The spans of the uses are those of the references among the nodes. -/
theorem spans_sites (g : Grammar) :
    g.sites.map Site.span = (g.nodes.filterMap Node.use?).map Prod.snd := by
  rw [show g.sites.map Site.span = _ from map_sites Prod.snd, nodes, List.filterMap_flatMap,
    List.map_flatMap]
  rfl

/-- No two uses have the same span. -/
theorem sites_pairwise (s : Text) :
    (parse s).sites.Pairwise fun site site' => site.span ≠ site'.span := by
  have huses := @pairwise_of_nodes s _ 3 Node.use? Prod.snd fun n use huse => by
    rw [Node.use?_eq_some_iff.mp huse]
    exact ⟨rfl, rfl⟩
  refine List.pairwise_map.mp (?_ : ((parse s).sites.map Site.span).Pairwise fun a b => a ≠ b)
  rw [spans_sites, List.pairwise_map]
  exact huses

/-- No two expressions have the same span. -/
theorem ambiguousExpressions_pairwise (s : Text) :
    (Check.ambiguousExpressions (parse s)).Pairwise fun d d' => d.span ≠ d'.span := by
  rw [Check.ambiguousExpressions, List.filterMap_filterMap]
  refine @pairwise_of_nodes s _ 0 _ Diagnostic.span fun n d hd => ?_
  obtain ⟨e, he, hd⟩ := Option.bind_eq_some_iff.mp hd
  rw [Check.ambiguousExpression?] at hd
  split at hd
  · cases hd
  · rw [← Option.some.inj hd]
    cases n <;> cases he
    exact ⟨rfl, rfl⟩

/-- **No check reports the same span twice.** -/
theorem run_pairwise (s : Text) (asked : Option Text) (pass : Pass) :
    (pass.run (parse s) asked).Pairwise fun d d' => d.span ≠ d'.span := by
  have hnames := nameMark_ne s
  cases pass with
  | undefinedRule => exact List.pairwise_map.mpr ((sites_pairwise s).sublist List.filter_sublist)
  | duplicateRule =>
      have hduplicates := hnames.sublist (duplicatesAfter_sublist (parse s).rules [])
      rw [List.pairwise_map] at hduplicates
      exact List.pairwise_map.mpr hduplicates
  | unreachableRule =>
      rw [Pass.run, Check.unreachableRules]
      split
      · exact List.Pairwise.nil
      · exact List.pairwise_map.mpr (hnames.sublist List.filter_sublist)
  | recursion =>
      exact List.pairwise_map.mpr
        (hnames.sublist (List.filter_sublist.trans (distinctBy_sublist Rule.name _)))
  | ambiguousPrefix => exact ambiguousExpressions_pairwise s
  | redundantParentheses => exact List.pairwise_map.mpr (redundantGroups_pairwise s)
  | simplifiableRepetition => exact List.pairwise_map.mpr (repeatedRuns_pairwise s)

/-- No two reports are of the same kind and at the same span. -/
theorem analyze_apart (s : Text) :
    (parse s).analyze.Pairwise fun d d' => d.problem = d'.problem → d.span ≠ d'.span := by
  rw [analyze, Diagnostic.sort, (stableSort_perm _).pairwise_iff
    fun hne hproblem => (hne hproblem.symm).symm]
  have hdistinct : Pass.all.Nodup := by decide
  refine List.pairwise_flatMap.mpr ⟨fun pass _ => ?_, ?_⟩
  · refine (run_pairwise s none pass).imp ?_
    exact fun hne _ => hne
  · refine hdistinct.imp fun hne d hd d' hd' hproblem => (hne (Pass.problem_injective ?_)).elim
    rw [← Pass.problem_of_mem_run hd, ← Pass.problem_of_mem_run hd', hproblem]

end Grammar

end EbnfKit
