import EbnfKit.Check.Report
import EbnfKit.Proofs.Tree

/-! # Marks — the checks on other marks

    A check looks at the structure of rules and hands their marks on.  So the same rules with
    other marks have the same problems, at the new marks:

      rules of k = rules of g, marked by f   imply   pass on k = pass on g, moved by f

    Only a run joins marks, which `f` has to respect, and only the error for a rule after the
    first of its name tells a place in its message. -/

namespace EbnfKit

variable {α β : Type}

/-! ## Trees -/

/-- The node with `f` applied to every mark. -/
def Node.map (f : α → β) : Node α → Node β
  | .expression e => .expression (e.map f)
  | .term t => .term (t.map f)
  | .factor g => .factor (g.map f)
  | .primary p => .primary (p.map f)

/-- The nodes of a tree with other marks. -/
theorem nodes_map (f : α → β) :
    Hereditary (fun e : Expression α => (e.map f).nodes = e.nodes.map (Node.map f))
      (fun t => (t.map f).nodes = t.nodes.map (Node.map f))
      (fun g => (g.map f).nodes = g.nodes.map (Node.map f))
      (fun p => (p.map f).nodes = p.nodes.map (Node.map f)) where
  expression := by
    intro m t ts ih
    rw [Expression.nodes_mk, List.map_cons, List.map_flatMap, Expression.map_mk,
      Expression.nodes_mk, ← List.map_cons, List.flatMap_map, Node.map, Expression.map_mk]
    exact congrArg _ (List.flatMap_congr ih)
  term := by
    intro m g gs ih
    rw [Term.nodes_mk, List.map_cons, List.map_flatMap, Term.map_mk, Term.nodes_mk,
      ← List.map_cons, List.flatMap_map, Node.map, Term.map_mk]
    exact congrArg _ (List.flatMap_congr ih)
  factor := by
    intro m n p x hp hx
    have hexception : (x.map (·.map f)).toList.flatMap Primary.nodes
        = (x.toList.flatMap Primary.nodes).map (Node.map f) := by
      cases x with
      | none => rfl
      | some q =>
          rw [Option.map_some, Option.toList_some, Option.toList_some, List.flatMap_singleton,
            List.flatMap_singleton, hx q rfl]
    rw [Factor.nodes_mk, List.map_cons, List.map_append, Factor.map_mk, Factor.nodes_mk, hp,
      hexception, Node.map, Factor.map_mk]
  reference := by intro m n; rfl
  literal := by intro m s q; rfl
  bracketed := by
    intro m b e ih
    rw [Primary.map, Primary.nodes, Primary.nodes, List.map_cons, ih]
    rfl

theorem Factor.shape_map (f : α → β) (g : Factor α) : (g.map f).shape = g.shape :=
  (map_map f fun _ => ()).factors g

theorem Primary.shape_map (f : α → β) (p : Primary α) : (p.map f).shape = p.shape :=
  (map_map f fun _ => ()).primaries p

theorem Factor.render_map (f : α → β) (g : Factor α) : (g.map f).render = g.render := by
  rw [← render_shape.factors (g.map f), g.shape_map, render_shape.factors g]

theorem Primary.render_map (f : α → β) (p : Primary α) : (p.map f).render = p.render := by
  rw [← render_shape.primaries (p.map f), p.shape_map, render_shape.primaries p]

theorem Expression.uses_mapped (f : α → β) (e : Expression α) :
    (e.map f).uses = e.uses.map fun use => (use.1, f use.2) := by
  rw [uses, uses, (nodes_map f).expressions e, List.filterMap_map, List.map_filterMap]
  refine List.filterMap_congr fun n _ => ?_
  cases n with
  | expression e => rfl
  | term t => rfl
  | factor g => rfl
  | primary p => cases p <;> rfl

theorem Expression.alternatives_map (f : α → β) (e : Expression α) :
    (e.map f).alternatives = e.alternatives.map (Term.map f) := by
  cases e with
  | mk m t ts => rw [map_mk, alternatives, alternatives, List.map_cons]

theorem Term.factors_map (f : α → β) (t : Term α) :
    (t.map f).factors = t.factors.map (Factor.map f) := by
  cases t with
  | mk m g gs => rw [map_mk, factors, factors, List.map_cons]

theorem Factor.isPlain_map (f : α → β) (g : Factor α) : (g.map f).isPlain = g.isPlain := by
  cases g with
  | mk m n p x => rw [map_mk]; cases x <;> rfl

/-! ## Grammars -/

/-- The same site at another mark. -/
def Site.map (f : Span → Span) (s : Site) : Site :=
  ⟨s.name, f s.span, s.rule⟩

/-- The same diagnostic at another mark. -/
def Diagnostic.map (f : Span → Span) (d : Diagnostic) : Diagnostic :=
  ⟨d.problem, f d.span, d.message⟩

/-- The same two rules with other marks. -/
def Duplicate.map (f : Span → Span) (d : Duplicate) : Duplicate :=
  ⟨d.first.map f, d.duplicate.map f⟩

/-- The rules of `k` are those of `g` with other marks. -/
def Grammar.Marked (f : Span → Span) (g k : Grammar) : Prop :=
  k.rules = g.rules.map (Rule.map f)

theorem distinctBy_map {κ : Type} [DecidableEq κ] {key : α → κ} {key' : β → κ} {f : α → β}
    (h : ∀ a, key' (f a) = key a) (as : List α) :
    distinctBy key' (as.map f) = (distinctBy key as).map f := by
  induction as with
  | nil => rfl
  | cons a as ih =>
      rw [List.map_cons, distinctBy, distinctBy, ih, List.map_cons, List.filter_map]
      simp only [Function.comp_def, h]

theorem duplicatesAfter_map (f : Span → Span) (rs : List (Rule Span)) :
    ∀ ds : List (Rule Span), duplicatesAfter (ds.map (Rule.map f)) (rs.map (Rule.map f))
      = (duplicatesAfter ds rs).map (Duplicate.map f) := by
  induction rs with
  | nil => exact fun _ => rfl
  | cons r rs ih =>
      intro ds
      have hfind : ((ds.map (Rule.map f)).find? fun d => d.name == (r.map f).name)
          = (ds.find? fun d => d.name == r.name).map (Rule.map f) := List.find?_map
      rw [List.map_cons, duplicatesAfter, duplicatesAfter, hfind]
      cases ds.find? fun d => d.name == r.name with
      | some first => exact congrArg (Duplicate.map f ⟨first, r⟩ :: ·) (ih ds)
      | none =>
          have hnext := ih (ds ++ [r])
          rw [List.map_append] at hnext
          exact hnext

namespace Grammar.Marked

variable {f : Span → Span} {g k : Grammar}

theorem nodes (h : Marked f g k) : k.nodes = g.nodes.map (Node.map f) := by
  rw [Grammar.nodes, Grammar.nodes, h, List.flatMap_map, List.map_flatMap]
  exact List.flatMap_congr fun r _ => (nodes_map f).expressions r.body

/-- The nodes of one sort. -/
theorem filterMap_nodes (h : Marked f g k) {γ : Type} {sort : Node Span → Option γ} {move : γ → γ}
    (hsort : ∀ n, sort (n.map f) = (sort n).map move) :
    k.nodes.filterMap sort = (g.nodes.filterMap sort).map move := by
  rw [h.nodes, List.filterMap_map, List.map_filterMap]
  exact List.filterMap_congr fun n _ => hsort n

theorem definition? (h : Marked f g k) (n : Text) :
    k.definition? n = (g.definition? n).map (Rule.map f) := by
  rw [Grammar.definition?, Grammar.definition?, h, List.find?_map]
  rfl

theorem isDefined (h : Marked f g k) : k.isDefined = g.isDefined := by
  funext n
  rw [Grammar.isDefined, Grammar.isDefined, h.definition?, Option.isSome_map]

theorem firstRule? (h : Marked f g k) : k.firstRule? = g.firstRule?.map (Rule.map f) := by
  rw [Grammar.firstRule?, Grammar.firstRule?, h, List.head?_map]

theorem length_eq (h : Marked f g k) : k.rules.length = g.rules.length := by
  rw [h, List.length_map]

theorem definitions (h : Marked f g k) : k.definitions = g.definitions.map (Rule.map f) := by
  rw [Grammar.definitions, h]
  exact distinctBy_map (fun _ => rfl) g.rules

theorem duplicates (h : Marked f g k) : k.duplicates = g.duplicates.map (Duplicate.map f) := by
  rw [Grammar.duplicates, h]
  exact duplicatesAfter_map f g.rules []

theorem sites (h : Marked f g k) : k.sites = g.sites.map (Site.map f) := by
  rw [Grammar.sites, Grammar.sites, h, List.zipIdx_map, List.flatMap_map, List.map_flatMap]
  refine List.flatMap_congr fun entry _ => ?_
  show (entry.1.body.map f).uses.map _ = _
  rw [Expression.uses_mapped, List.map_map, List.map_map]
  rfl

end Grammar.Marked

/-! ## What the checks find -/

/-- The same group at another mark. -/
def RedundantGroup.map (f : Span → Span) (q : RedundantGroup) : RedundantGroup :=
  ⟨f q.span, q.inner.map f⟩

/-- The same run at another mark. -/
def Run.map (f : Span → Span) (r : Run) : Run :=
  ⟨r.factor.map f, r.count, f r.span⟩

namespace Check

variable {f : Span → Span} {g k : Grammar}

/-! ### Names -/

theorem undefinedRules_marked (h : g.Marked f k) :
    undefinedRules k = (undefinedRules g).map (Diagnostic.map f) := by
  rw [undefinedRules, undefinedRules, h.sites, h.isDefined, List.filter_map, List.map_map,
    List.map_map]
  rfl

theorem startRule?_marked (h : g.Marked f k) (asked : Option Text) :
    startRule? k asked = (startRule? g asked).map (Rule.map f) := by
  have hasked : asked.bind k.definition? = (asked.bind g.definition?).map (Rule.map f) := by
    cases asked with
    | none => rfl
    | some n => exact h.definition? n
  rw [startRule?, startRule?, hasked, h.firstRule?]
  cases asked.bind g.definition? <;> rfl

theorem neededBy_marked (h : g.Marked f k) : neededBy k = neededBy g := by
  funext n
  rw [neededBy, neededBy, h.definition?, h.isDefined]
  cases g.definition? n with
  | none => rfl
  | some r =>
      show (distinctNames ((r.body.map f).uses.map _)).filter _ = _
      rw [Expression.uses_mapped, List.map_map]
      rfl

theorem reachable_marked (h : g.Marked f k) (r : Rule Span) :
    reachable k (r.map f) = reachable g r := by
  have hfrontier : frontier k = frontier g := by
    funext known fresh
    rw [frontier, frontier, neededBy_marked h]
  have hsaturate : ∀ (n : Nat) (known fresh : List Text),
      saturate k n known fresh = saturate g n known fresh := by
    intro n
    induction n with
    | zero => exact fun _ _ => rfl
    | succ n ih =>
        intro known fresh
        rw [saturate, saturate, hfrontier]
        cases frontier g known fresh with
        | nil => rfl
        | cons name names => exact ih _ _
  rw [reachable, reachable, h.length_eq]
  exact hsaturate _ _ _

theorem unreachableRules_marked (h : g.Marked f k) (asked : Option Text) :
    unreachableRules k asked = (unreachableRules g asked).map (Diagnostic.map f) := by
  rw [unreachableRules, unreachableRules, startRule?_marked h]
  cases startRule? g asked with
  | none => rfl
  | some start =>
      simp only [Option.map_some, reachable_marked h]
      rw [h, List.filter_map, List.map_map, List.map_map]
      rfl

/-! ### Base cases -/

/-- Whether something finishes does not depend on marks. -/
theorem finishes_map (f : Span → Span) (lookup : Text → List Text → Search) :
    Hereditary
      (fun e => ∀ seen, expressionFinishes lookup (e.map f) seen = expressionFinishes lookup e seen)
      (fun t => ∀ seen, termFinishes lookup (t.map f) seen = termFinishes lookup t seen)
      (fun g => ∀ seen, factorFinishes lookup (g.map f) seen = factorFinishes lookup g seen)
      (fun p => ∀ seen, primaryFinishes lookup (p.map f) seen = primaryFinishes lookup p seen) where
  expression := by
    intro m t ts ih seen
    obtain ⟨ht, hts⟩ := List.forall_mem_cons.mp ih
    have hothers : ∀ seen, anyTermFinishes lookup (ts.map (Term.map f)) seen
        = anyTermFinishes lookup ts seen := by
      clear ih
      induction ts with
      | nil => exact fun _ => rfl
      | cons u us ihs =>
          intro seen
          obtain ⟨hu, hus⟩ := List.forall_mem_cons.mp hts
          rw [List.map_cons, anyTermFinishes, anyTermFinishes, hu]
          simp only [ihs hus]
    rw [Expression.map_mk, expressionFinishes, expressionFinishes, ht]
    simp only [hothers]
  term := by
    intro m h hs ih seen
    obtain ⟨hh, hhs⟩ := List.forall_mem_cons.mp ih
    have hothers : ∀ seen, allFactorsFinish lookup (hs.map (Factor.map f)) seen
        = allFactorsFinish lookup hs seen := by
      clear ih
      induction hs with
      | nil => exact fun _ => rfl
      | cons u us ihs =>
          intro seen
          obtain ⟨hu, hus⟩ := List.forall_mem_cons.mp hhs
          rw [List.map_cons, allFactorsFinish, allFactorsFinish, hu]
          simp only [ihs hus]
    rw [Term.map_mk, termFinishes, termFinishes, hh]
    simp only [hothers]
  factor := by
    intro m n p x hp _ seen
    rw [Factor.map_mk, factorFinishes, factorFinishes, hp]
  reference := by intro m n seen; rfl
  literal := by intro m s q seen; rfl
  bracketed := by
    intro m b e ih seen
    cases b with
    | group => exact ih seen
    | optional => rfl
    | repetition => rfl

theorem nameFinishes_marked (h : g.Marked f k) (target : Text) (fuel : Nat) :
    nameFinishes k target fuel = nameFinishes g target fuel := by
  induction fuel with
  | zero => rfl
  | succ fuel ih =>
      funext n seen
      rw [nameFinishes, nameFinishes, h.definition?, ih]
      cases g.definition? n with
      | none => rfl
      | some r =>
          show (if n = target then _ else if seen.contains n = true then _
            else expressionFinishes _ (r.body.map f) _) = _
          rw [(finishes_map f _).expressions r.body]

theorem endlessRules_marked (h : g.Marked f k) :
    endlessRules k = (endlessRules g).map (Diagnostic.map f) := by
  have hbase : ∀ r : Rule Span, hasBaseCase k (r.map f) = hasBaseCase g r := by
    intro r
    show (r.body.map f).alternatives.any (alternativeFinishes k r.name) = _
    rw [Expression.alternatives_map, List.any_map, hasBaseCase]
    congr 1
    funext t
    show alternativeFinishes k r.name (t.map f) = _
    rw [alternativeFinishes, alternativeFinishes, h.length_eq, nameFinishes_marked h,
      (finishes_map f _).terms t]
  rw [endlessRules, endlessRules, h.definitions, List.filter_map, List.map_map, List.map_map]
  simp only [Function.comp_def, hbase]
  rfl

/-! ### Nodes -/

theorem ambiguousExpressions_marked (h : g.Marked f k) :
    ambiguousExpressions k = (ambiguousExpressions g).map (Diagnostic.map f) := by
  have hlead : ∀ t : Term Span, Lead.ofTerm (t.map f) = Lead.ofTerm t := by
    intro t
    obtain ⟨m, ⟨m', n, p, x⟩, gs⟩ := t
    show Lead.ofPrimary (p.map f) = Lead.ofPrimary p
    cases p with
    | reference m n => rfl
    | literal m s q => rfl
    | bracketed m b e => exact congrArg Lead.bracketed (Primary.render_map f (.bracketed m b e))
  have hexpression : ∀ e : Expression Span, ambiguousExpression? (e.map f)
      = (ambiguousExpression? e).map (Diagnostic.map f) := by
    intro e
    have hleads : (e.map f).alternatives.map Lead.ofTerm = e.alternatives.map Lead.ofTerm := by
      rw [Expression.alternatives_map, List.map_map]
      exact List.map_congr_left fun t _ => hlead t
    have hmark : (e.map f).mark = f e.mark := by
      cases e
      rfl
    rw [ambiguousExpression?, ambiguousExpression?, hleads, hmark]
    cases sharedLeads (e.alternatives.map Lead.ofTerm) <;> rfl
  have hexpressions : k.nodes.filterMap (·.expression?)
      = (g.nodes.filterMap (·.expression?)).map (Expression.map f) :=
    h.filterMap_nodes fun n => by cases n <;> rfl
  rw [ambiguousExpressions, ambiguousExpressions, hexpressions, List.filterMap_map,
    List.map_filterMap]
  exact List.filterMap_congr fun e _ => hexpression e

end Check

section Nodes

variable {f : Span → Span} {g k : Grammar}

theorem RedundantGroup.ofPrimary?_map (f : Span → Span) (plain : Bool) (p : Primary Span) :
    ofPrimary? plain (p.map f) = (ofPrimary? plain p).map (RedundantGroup.map f) := by
  cases p with
  | reference m n => rfl
  | literal m s q => rfl
  | bracketed m b e =>
      obtain ⟨m', ⟨m'', h, hs⟩, ts⟩ := e
      cases b with
      | optional => rfl
      | repetition => rfl
      | group =>
          rcases hs with _ | ⟨h', hs⟩ <;> rcases ts with _ | ⟨t, ts⟩
          · show (if plain || (h.map f).isPlain then _ else _) = Option.map _ (if _ then _ else _)
            rw [h.isPlain_map]
            split <;> rfl
          · rfl
          · rfl
          · rfl

theorem RedundantGroup.ofFactor_map (f : Span → Span) (h : Factor Span) :
    ofFactor (h.map f) = (ofFactor h).map (RedundantGroup.map f) := by
  have hplain := h.isPlain_map f
  obtain ⟨m, n, p, x⟩ := h
  have hexception : (x.map (Primary.map f)).bind (ofPrimary? false)
      = (x.bind (ofPrimary? false)).map (RedundantGroup.map f) := by
    cases x with
    | none => rfl
    | some q => exact ofPrimary?_map f false q
  rw [ofFactor, ofFactor, hplain, Factor.map_mk, List.map_append, ← Option.toList_map,
    ← Option.toList_map]
  show (ofPrimary? _ (p.map f)).toList ++ ((x.map (Primary.map f)).bind _).toList = _
  rw [ofPrimary?_map, hexception]
  rfl

theorem Grammar.Marked.redundantGroups (h : g.Marked f k) :
    k.redundantGroups = g.redundantGroups.map (RedundantGroup.map f) := by
  have hfactors : k.nodes.filterMap (·.factor?)
      = (g.nodes.filterMap (·.factor?)).map (Factor.map f) :=
    h.filterMap_nodes fun n => by cases n <;> rfl
  rw [Grammar.redundantGroups, Grammar.redundantGroups, hfactors, List.flatMap_map,
    List.map_flatMap]
  exact List.flatMap_congr fun q _ => RedundantGroup.ofFactor_map f q

/-- The same block with other marks. -/
def Run.mapBlock (f : Span → Span) (b : Factor Span × List (Factor Span)) :
    Factor Span × List (Factor Span) :=
  (b.1.map f, b.2.map (Factor.map f))

theorem Run.blocks_map (f : Span → Span) (fs : List (Factor Span)) :
    blocks (fs.map (Factor.map f)) = (blocks fs).map (mapBlock f) := by
  induction fs with
  | nil => rfl
  | cons h hs ih =>
      rw [List.map_cons, blocks, blocks, ih]
      cases blocks hs with
      | nil => rfl
      | cons b bs =>
          obtain ⟨h', hs'⟩ := b
          show (if (h.map f).render = (h'.map f).render then _ else _) = _
          rw [h.render_map, h'.render_map]
          by_cases hsame : h.render = h'.render
          · simp only [if_pos hsame]
            rfl
          · simp only [if_neg hsame]
            rfl

theorem Run.ofBlock?_map (hf : ∀ a b : Span, f (a.join b) = (f a).join (f b))
    (b : Factor Span × List (Factor Span)) :
    ofBlock? (mapBlock f b) = (ofBlock? b).map (Run.map f) := by
  have hlast : (mapBlock f b).2.getLast? = b.2.getLast?.map (Factor.map f) := List.getLast?_map
  rw [ofBlock?, ofBlock?, hlast]
  cases b.2.getLast? with
  | none => rfl
  | some last =>
      show some (Run.mk (b.1.map f) ((b.2.map _).length + 1)
        ((b.1.map f).mark.join (last.map f).mark)) = _
      rw [b.1.mark_map, last.mark_map, List.length_map, ← hf]
      rfl

theorem Grammar.Marked.repeatedRuns (h : g.Marked f k)
    (hf : ∀ a b : Span, f (a.join b) = (f a).join (f b)) :
    k.repeatedRuns = g.repeatedRuns.map (Run.map f) := by
  have hterms : k.nodes.filterMap (·.term?) = (g.nodes.filterMap (·.term?)).map (Term.map f) :=
    h.filterMap_nodes fun n => by cases n <;> rfl
  rw [Grammar.repeatedRuns, Grammar.repeatedRuns, hterms, List.flatMap_map, List.map_flatMap]
  refine List.flatMap_congr fun t _ => ?_
  rw [Run.ofTerm, Run.ofTerm, Term.factors_map, Run.blocks_map, List.filterMap_map,
    List.map_filterMap]
  exact List.filterMap_congr fun b _ => Run.ofBlock?_map hf b

end Nodes

/-- **Checks hand marks on**: on the same rules with other marks a check finds the same, at
    the new marks, unless it looks for rules after the first of their name. -/
theorem Pass.run_marked {f : Span → Span} {g k : Grammar} (h : g.Marked f k)
    (hf : ∀ a b : Span, f (a.join b) = (f a).join (f b)) (asked : Option Text) {pass : Pass}
    (hpass : pass ≠ .duplicateRule) :
    pass.run k asked = (pass.run g asked).map (Diagnostic.map f) := by
  cases pass with
  | undefinedRule => exact Check.undefinedRules_marked h
  | duplicateRule => exact absurd rfl hpass
  | unreachableRule => exact Check.unreachableRules_marked h asked
  | recursion => exact Check.endlessRules_marked h
  | ambiguousPrefix => exact Check.ambiguousExpressions_marked h
  | redundantParentheses =>
      rw [run, run, Check.redundantGroups, Check.redundantGroups, h.redundantGroups, List.map_map,
        List.map_map]
      refine List.map_congr_left fun q _ => ?_
      show Check.redundantGroup ⟨f q.span, q.inner.map f⟩ = _
      rw [Check.redundantGroup, Factor.render_map]
      rfl
  | simplifiableRepetition =>
      rw [run, run, Check.repeatedRuns, Check.repeatedRuns, h.repeatedRuns hf, List.map_map,
        List.map_map]
      refine List.map_congr_left fun r _ => ?_
      have hcounted : (r.map f).counted = r.counted := by
        show (if (r.factor.map f).isPlain then _ ++ (r.factor.map f).render
          else _ ++ (r.factor.map f).render ++ _) = _
        rw [Factor.isPlain_map, Factor.render_map]
        rfl
      have honce : (r.map f).factor.render = r.factor.render := r.factor.render_map f
      show Check.repeatedRun (r.map f) = _
      rw [Check.repeatedRun, hcounted, honce]
      rfl

end EbnfKit
