import EbnfKit.Check.Report
import EbnfKit.Proofs.Clean
import EbnfKit.Proofs.Reachability

/-! # Offering — which fixes a round applies

    Diagnostics come in the order of their places, and each fix starts where its diagnostic
    does.  One that overlaps an earlier one is left out, so the fixes kept are in order:

      kept one by one   implies   each stops before the next one starts

    Whatever is kept serves some rule: it removes the rule, which is not needed, or it
    rewrites a part of its body.  All rules that are not needed are removed, for no fix of
    another rule reaches into them. -/

namespace EbnfKit

/-! ## What the checks find -/

/-- The problem that a check looks for. -/
def Pass.problem : Pass → Problem
  | undefinedRule => .undefinedRule
  | duplicateRule => .duplicateRule
  | unreachableRule => .unreachableRule
  | recursion => .recursiveWithoutBaseCase
  | ambiguousPrefix => .ambiguousPrefix
  | redundantParentheses => .redundantParentheses
  | simplifiableRepetition => .simplifiableRepetition

/-- A check finds only what it looks for. -/
theorem Pass.problem_of_mem_run {g : Grammar} {asked : Option Text} {pass : Pass} {d : Diagnostic}
    (h : d ∈ pass.run g asked) : d.problem = pass.problem := by
  cases pass with
  | undefinedRule =>
      obtain ⟨_, -, rfl⟩ := List.mem_map.mp h
      rfl
  | duplicateRule =>
      obtain ⟨_, -, rfl⟩ := List.mem_map.mp h
      rfl
  | unreachableRule =>
      rw [run, Check.unreachableRules] at h
      split at h
      · cases h
      · obtain ⟨_, -, rfl⟩ := List.mem_map.mp h
        rfl
  | recursion =>
      obtain ⟨_, -, rfl⟩ := List.mem_map.mp h
      rfl
  | ambiguousPrefix =>
      obtain ⟨e, -, he⟩ := List.mem_filterMap.mp h
      rw [Check.ambiguousExpression?] at he
      split at he
      · cases he
      · rw [← Option.some.inj he]
        rfl
  | redundantParentheses =>
      obtain ⟨_, -, rfl⟩ := List.mem_map.mp h
      rfl
  | simplifiableRepetition =>
      obtain ⟨_, -, rfl⟩ := List.mem_map.mp h
      rfl

theorem Pass.problem_injective {pass pass' : Pass} (h : pass.problem = pass'.problem) :
    pass = pass' := by
  cases pass <;> cases pass' <;> first | rfl | cases h

theorem Grammar.mem_analyze {g : Grammar} {d : Diagnostic} :
    d ∈ g.analyze ↔ ∃ pass : Pass, d ∈ pass.run g none := by
  rw [Grammar.analyze, Diagnostic.sort, (stableSort_perm _).mem_iff, List.mem_flatMap]
  refine exists_congr fun pass => and_iff_right ?_
  cases pass <;> decide

/-- What is found of one kind is what the check for it finds. -/
theorem Grammar.mem_run_of_mem_analyze {g : Grammar} {d : Diagnostic} (h : d ∈ g.analyze)
    (pass : Pass) (hproblem : d.problem = pass.problem) : d ∈ pass.run g none := by
  obtain ⟨pass', hmem⟩ := Grammar.mem_analyze.mp h
  rw [← Pass.problem_injective ((Pass.problem_of_mem_run hmem).symm.trans hproblem)]
  exact hmem

/-- Diagnostics come in the order in which they start. -/
theorem Grammar.analyze_pairwise (g : Grammar) :
    g.analyze.Pairwise fun d d' => d.span.start ≤ d'.span.start := by
  refine stableSort_pairwise (R := fun d d' : Diagnostic => d.span.start ≤ d'.span.start)
    (fun _ _ _ => Nat.le_trans) ?_ ?_ _
  · intro a b h
    simp only [Diagnostic.le, Span.before, Bool.or_eq_true, Bool.and_eq_true, decide_eq_true_eq,
      beq_iff_eq] at h
    rcases h with (h | h) | h
    · omega
    · omega
    · rw [h.1]
  · intro a b h
    simp only [Diagnostic.le, Span.before, Bool.or_eq_false_iff, Bool.and_eq_false_iff,
      decide_eq_false_iff_not] at h
    omega

/-- The rules that are reported are those that are not needed. -/
theorem Check.mem_unreachableRules {g : Grammar} {d : Diagnostic} :
    d ∈ Check.unreachableRules g none ↔ ∃ start, g.firstRule? = some start ∧
      ∃ r ∈ g.rules, ¬g.Reaches r.name ∧ unreachableRule start r = d := by
  cases hfirst : g.firstRule? with
  | none => simp [unreachableRules, startRule?, hfirst]
  | some start =>
      simp only [unreachableRules, startRule?, Option.bind_none, hfirst, Option.some.injEq,
        exists_eq_left', List.mem_map, List.mem_filter, reaches_iff hfirst, List.contains_eq_mem,
        Bool.not_eq_true', decide_eq_false_iff_not, and_assoc]

/-! ## Keeping fixes -/

namespace Fix

/-- Of two fixes that start in this order and do not overlap, the first stops before the
    second starts. -/
theorem stop_le_of_not_overlaps {f g : Fix} (hg : g.span.start < g.span.stop)
    (hstart : f.span.start ≤ g.span.start) (h : f.span.overlaps g.span = false) :
    f.span.stop ≤ g.span.start := by
  simp only [Span.overlaps, Bool.or_eq_false_iff, Bool.and_eq_false_iff,
    decide_eq_false_iff_not] at h
  omega

theorem not_overlaps_of_stop_le {f g : Fix} (hf : f.span.start < f.span.stop)
    (h : f.span.stop ≤ g.span.start) : f.span.overlaps g.span = false := by
  simp only [Span.overlaps, Bool.or_eq_false_iff, Bool.and_eq_false_iff, decide_eq_false_iff_not,
    beq_eq_false_iff_ne]
  refine ⟨Or.inr (by omega), fun heq => ?_⟩
  rw [heq] at h hf
  omega

theorem mem_keep {kept : List Fix} {f g : Fix} (h : f ∈ keep kept g) : f ∈ kept ∨ f = g := by
  rw [keep] at h
  split at h
  · exact Or.inl h
  · rcases List.mem_append.mp h with h | h
    · exact Or.inl h
    · exact Or.inr (List.mem_singleton.mp h)

theorem mem_keep_of_mem {kept : List Fix} {f g : Fix} (h : f ∈ kept) : f ∈ keep kept g := by
  rw [keep]
  split
  · exact h
  · exact List.mem_append_left _ h

theorem ordered_keep {kept : List Fix} (h : Ordered kept) {f : Fix}
    (hforward : f.span.start < f.span.stop) (hstart : ∀ g ∈ kept, g.span.start ≤ f.span.start) :
    Ordered (keep kept f) := by
  rw [keep]
  split
  · exact h
  · rename_i hany
    refine List.pairwise_append.mpr ⟨h, List.pairwise_singleton _ _, ?_⟩
    intro g hg k hk
    rw [List.mem_singleton.mp hk]
    refine stop_le_of_not_overlaps hforward (hstart g hg) (Bool.eq_false_iff.mpr fun hover => ?_)
    exact hany (List.any_eq_true.mpr ⟨g, hg, hover⟩)

/-- A fix that none of those kept reaches into is kept. -/
theorem mem_keep_self {kept : List Fix} {f : Fix} (hforward : ∀ g ∈ kept, g.span.start < g.span.stop)
    (h : ∀ g ∈ kept, g = f ∨ g.span.stop ≤ f.span.start) : f ∈ keep kept f := by
  rw [keep]
  split
  · rename_i hany
    obtain ⟨g, hg, hover⟩ := List.any_eq_true.mp hany
    rcases h g hg with rfl | hstop
    · exact hg
    · rw [not_overlaps_of_stop_le (hforward g hg) hstop] at hover
      cases hover
  · exact List.mem_append_right _ (List.mem_singleton_self f)

/-- Each fix kept is for one of the diagnostics. -/
theorem offerAfter_mem {g : Grammar} {places : Places} {fixes : List Fix} {ds : List Diagnostic} :
    ∀ {kept : List Fix}, offerAfter g places kept ds = .ok fixes → ∀ f ∈ fixes,
      f ∈ kept ∨ ∃ d ∈ ds, offerAt g places d = .ok (some f) := by
  induction ds with
  | nil =>
      intro kept h f hf
      cases h
      exact Or.inl hf
  | cons d ds ih =>
      intro kept h f hf
      rw [offerAfter] at h
      have hlater : (∃ d' ∈ ds, offerAt g places d' = .ok (some f)) →
          ∃ d' ∈ d :: ds, offerAt g places d' = .ok (some f) :=
        fun ⟨d', hd', hfix⟩ => ⟨d', List.mem_cons_of_mem d hd', hfix⟩
      split at h
      · cases h
      · exact (ih h f hf).imp_right hlater
      · rename_i f' hf'
        rcases ih h f hf with hmem | hmem
        · rcases mem_keep hmem with hmem | rfl
          · exact Or.inl hmem
          · exact Or.inr ⟨d, List.mem_cons_self, hf'⟩
        · exact Or.inr (hlater hmem)

/-- What is kept of the fixes for diagnostics in order.  `Serves` is whatever is known of
    each fix. -/
theorem offerAfter_spec {g : Grammar} {places : Places} {Serves : Fix → Prop}
    (hforward : ∀ f, Serves f → f.span.start < f.span.stop) :
    ∀ {ds : List Diagnostic} {kept : List Fix},
      (∀ d ∈ ds, ∃ o, offerAt g places d = .ok o ∧
        ∀ f ∈ o, Serves f ∧ f.span.start = d.span.start) →
      ds.Pairwise (fun d d' => d.span.start ≤ d'.span.start) → Ordered kept →
      (∀ f ∈ kept, Serves f ∧ ∀ d ∈ ds, f.span.start ≤ d.span.start) →
      ∃ fixes, offerAfter g places kept ds = .ok fixes ∧ Ordered fixes ∧
        (∀ f ∈ fixes, Serves f) ∧ (∀ f ∈ kept, f ∈ fixes) ∧
        ∀ d ∈ ds, ∀ f, offerAt g places d = .ok (some f) →
          (∀ k, Serves k → k.span.start ≤ f.span.start → k = f ∨ k.span.stop ≤ f.span.start) →
          f ∈ fixes := by
  intro ds
  -- on the diagnostics: what is kept is in order and starts before whatever is still to come
  induction ds with
  | nil =>
      intro kept _ _ hordered hkept
      exact ⟨kept, rfl, hordered, fun f hf => (hkept f hf).1, fun _ hf => hf,
        fun _ hd => nomatch hd⟩
  | cons d ds ih =>
      intro kept hoffers hsorted hordered hkept
      obtain ⟨⟨o, ho, hserves⟩, hlater⟩ := List.forall_mem_cons.mp hoffers
      obtain ⟨hfirst, hsorted⟩ := List.pairwise_cons.mp hsorted
      cases o with
      | none =>
          obtain ⟨fixes, heq, hfixes⟩ := ih hlater hsorted hordered fun f hf =>
            ⟨(hkept f hf).1, (List.forall_mem_cons.mp (hkept f hf).2).2⟩
          refine ⟨fixes, by rw [offerAfter, ho]; exact heq, hfixes.1, hfixes.2.1, hfixes.2.2.1, ?_⟩
          refine List.forall_mem_cons.mpr ⟨fun f hf => ?_, hfixes.2.2.2⟩
          rw [ho] at hf
          cases hf
      | some f =>
          obtain ⟨hf, hstart⟩ := hserves f rfl
          have hbefore : ∀ k ∈ kept, k.span.start ≤ f.span.start := by
            intro k hk
            rw [hstart]
            exact (hkept k hk).2 d List.mem_cons_self
          obtain ⟨fixes, heq, hordered', hall, hmem, hoffered⟩ := ih hlater hsorted
            (ordered_keep hordered (hforward f hf) hbefore) (by
              intro k hk
              rcases mem_keep hk with hk | rfl
              · exact ⟨(hkept k hk).1, (List.forall_mem_cons.mp (hkept k hk).2).2⟩
              · exact ⟨hf, fun d' hd' => hstart ▸ hfirst d' hd'⟩)
          refine ⟨fixes, by rw [offerAfter, ho]; exact heq, hordered', hall,
            fun k hk => hmem k (mem_keep_of_mem hk), List.forall_mem_cons.mpr ⟨?_, hoffered⟩⟩
          -- what is free of those before it is kept, and what is kept stays
          intro k hk hfree
          rw [ho] at hk
          obtain rfl := Option.some.inj (Except.ok.inj hk)
          refine hmem f (mem_keep_self (fun k hk => hforward k (hkept k hk).1) fun k hk => ?_)
          exact hfree k (hkept k hk).1 (hbefore k hk)

end Fix

/-! ## Fixes for the checks -/

namespace Grammar

variable {s : Text} {ps : List Piece}

/-- The fix removes a rule that is not needed, or rewrites a part of one. -/
def Serves (g : Grammar) (f : Fix) : Prop :=
  (∃ r ∈ g.rules, ¬g.Reaches r.name ∧ f = Fix.removeRule g.source r) ∨
    ∃ r ∈ g.rules, f ∈ r.body.fixes

theorem Serves.forward (h : (parse s).diagnostics = []) (hs : Layout s ps) {f : Fix}
    (hf : (parse s).Serves f) : f.span.start < f.span.stop := by
  rcases hf with ⟨r, hr, -, rfl⟩ | ⟨r, hr, hf⟩
  · rw [source_parse]
    obtain ⟨hstart, hforward, hstop, -⟩ := span_of_removal h hs hr
    omega
  · exact (bounds_of_body_fix h hr hf).2.1

/-- No fix that starts before a rule, or with it, reaches into it, but for its removal. -/
theorem Serves.stop_le (h : (parse s).diagnostics = []) (hs : Layout s ps) {r : Rule Span}
    (hr : r ∈ (parse s).rules) {f : Fix} (hf : (parse s).Serves f)
    (hstart : f.span.start ≤ r.mark.start) :
    f = Fix.removeRule s r ∨ f.span.stop ≤ r.mark.start := by
  have hrforward := (span_of_removal h hs hr).2.1
  have hapart := (derives_of_clean h).apart (significant_scanned s)
  rcases hf with ⟨q, hq, -, rfl⟩ | ⟨q, hq, hf⟩
  · rw [source_parse] at hstart ⊢
    obtain ⟨hqstart, hqforward, -, -, hafter⟩ := span_of_removal h hs hq
    rcases pairwise_cases hapart hq hr with rfl | hbefore | hbehind
    · exact Or.inl rfl
    · -- the first token of `r` stands behind `q`
      obtain ⟨ts, hts, hderives⟩ := (derives_of_clean h).sublist hr
      have hne := Parser.rule_ne_nil hderives
      have hhead := Span.over_start hne
      rw [← hderives.mark_eq] at hhead
      refine Or.inr ?_
      rw [hhead] at hbefore ⊢
      exact hafter _ (hts.subset (List.head_mem hne)) hbefore
    · omega
  · obtain ⟨hqstart, hforward, hqstop⟩ := bounds_of_body_fix h hq hf
    rcases pairwise_cases hapart hq hr with rfl | hbefore | hbehind
    · omega
    · omega
    · omega

/-- A fix of a node is a fix of some rule. -/
theorem exists_rule_of_fix {g : Grammar} {f : Fix} (hf : f ∈ g.nodes.flatMap Node.fixes) :
    ∃ r ∈ g.rules, f ∈ r.body.fixes := by
  rw [nodes, List.flatMap_assoc] at hf
  exact List.mem_flatMap.mp hf

/-- Dropping a group is a fix of the rule that holds it. -/
theorem exists_rule_dropParentheses {g : Grammar} {q : RedundantGroup}
    (hq : q ∈ g.redundantGroups) : ∃ r ∈ g.rules, Fix.dropParentheses q ∈ r.body.fixes :=
  exists_rule_of_fix (Fix.dropParentheses_mem hq)

/-- Counting a run is a fix of the rule that holds it. -/
theorem exists_rule_countRun {g : Grammar} {r : Run} (hr : r ∈ g.repeatedRuns) :
    ∃ q ∈ g.rules, Fix.countRun r ∈ q.body.fixes :=
  exists_rule_of_fix (Fix.countRun_mem hr)

/-- Looking for something with a key that is there finds something with that key. -/
theorem exists_find?_of_mem {β κ : Type} [BEq κ] [LawfulBEq κ] (key : β → κ) {xs : List β} {x : β}
    (hx : x ∈ xs) : ∃ y ∈ xs, xs.find? (fun y => key y == key x) = some y ∧ key y = key x := by
  cases hfind : xs.find? (fun y => key y == key x) with
  | none =>
      have hnone := List.find?_eq_none.mp hfind x hx
      simp at hnone
  | some y =>
      have hkey := List.find?_some hfind
      exact ⟨y, List.mem_of_find?_eq_some hfind, rfl, eq_of_beq hkey⟩

/-- The removal of a rule that is not needed is found for it. -/
theorem find_unreachableRule (h : (parse s).diagnostics = []) {start r : Rule Span}
    (hr : r ∈ (parse s).rules) :
    Fix.find (parse s) (.of (parse s)) (Check.unreachableRule start r)
      = .ok (some (Fix.removeRule s r)) := by
  have hmark : ∀ q ∈ (parse s).rules, q.nameMark.start = q.mark.start := by
    intro q hq
    obtain ⟨ts, -, hderives⟩ := (derives_of_clean h).sublist hq
    exact hderives.nameMark_start
  obtain ⟨q, hq, hfind, hname⟩ := exists_find?_of_mem (fun q : Rule Span => q.nameMark) hr
  have hsame : q = r := by
    refine eq_of_start h hq hr ?_
    rw [← hmark q hq, ← hmark r hr, hname]
  simp only [Fix.find, Check.unreachableRule, hfind, hsame, source_parse]

/-- For whatever the checks find there is a fix that serves a rule, or none. -/
theorem find_serves (h : (parse s).diagnostics = []) {d : Diagnostic}
    (hd : d ∈ (parse s).analyze) :
    ∃ o, Fix.find (parse s) (.of (parse s)) d = .ok o ∧
      ∀ f ∈ o, (parse s).Serves f ∧ f.span.start = d.span.start := by
  cases hproblem : d.problem with
  | unreachableRule =>
      have hmem := mem_run_of_mem_analyze hd .unreachableRule hproblem
      obtain ⟨start, -, r, hr, hunneeded, rfl⟩ := Check.mem_unreachableRules.mp hmem
      refine ⟨_, find_unreachableRule h hr, fun f hf => ?_⟩
      obtain rfl := Option.some.inj hf
      obtain ⟨ts, -, hderives⟩ := (derives_of_clean h).sublist hr
      refine ⟨Or.inl ⟨r, hr, hunneeded, by rw [source_parse]⟩, ?_⟩
      have hstart : (Fix.removeRule s r).span.start = r.mark.start := by
        show (Fix.withLineBreak s r.mark).start = r.mark.start
        rw [Fix.withLineBreak]
        split <;> rfl
      exact hstart.trans hderives.nameMark_start.symm
  | redundantParentheses =>
      -- the group found may be another one at the same place
      have hmem := mem_run_of_mem_analyze hd .redundantParentheses hproblem
      obtain ⟨q, hq, rfl⟩ := List.mem_map.mp hmem
      obtain ⟨r, hr, hfind, hspan⟩ := exists_find?_of_mem (fun r : RedundantGroup => r.span) hq
      refine ⟨some (Fix.dropParentheses r), ?_, fun f hf => ?_⟩
      · simp only [Fix.find, Fix.Places.of, Check.redundantGroup, hfind]
      · obtain rfl := Option.some.inj hf
        exact ⟨Or.inr (exists_rule_dropParentheses hr), congrArg Span.start hspan⟩
  | simplifiableRepetition =>
      have hmem := mem_run_of_mem_analyze hd .simplifiableRepetition hproblem
      obtain ⟨q, hq, rfl⟩ := List.mem_map.mp hmem
      obtain ⟨r, hr, hfind, hspan⟩ := exists_find?_of_mem (fun r : Run => r.span) hq
      refine ⟨some (Fix.countRun r), ?_, fun f hf => ?_⟩
      · simp only [Fix.find, Fix.Places.of, Check.repeatedRun, hfind]
      · obtain rfl := Option.some.inj hf
        exact ⟨Or.inr (exists_rule_countRun hr), congrArg Span.start hspan⟩
  | syntaxError => exact ⟨none, by simp [Fix.find, hproblem], fun _ hf => by cases hf⟩
  | undefinedRule => exact ⟨none, by simp [Fix.find, hproblem], fun _ hf => by cases hf⟩
  | duplicateRule => exact ⟨none, by simp [Fix.find, hproblem], fun _ hf => by cases hf⟩
  | recursiveWithoutBaseCase => exact ⟨none, by simp [Fix.find, hproblem], fun _ hf => by cases hf⟩
  | ambiguousPrefix => exact ⟨none, by simp [Fix.find, hproblem], fun _ hf => by cases hf⟩

/-- For whatever the checks find a fix that serves a rule is offered, or none. -/
theorem offer_serves (h : (parse s).diagnostics = []) {d : Diagnostic} (hd : d ∈ (parse s).analyze) :
    ∃ o, Fix.offer (parse s) d = .ok o ∧ ∀ f ∈ o, (parse s).Serves f ∧ f.span.start = d.span.start := by
  obtain ⟨o, hfind, hserves⟩ := find_serves h hd
  rw [Fix.offer, Fix.offerAt, isBroken_of_clean h, hfind]
  cases o with
  | none => exact ⟨none, rfl, fun _ hf => nomatch hf⟩
  | some f =>
      -- a fix may still be withheld, for a comment under it
      simp only [Bool.false_eq_true, if_false]
      split
      · exact ⟨none, rfl, fun _ hf => nomatch hf⟩
      · exact ⟨some f, rfl, hserves⟩

/-- **The fixes of a round** come in order, each serves a rule, and every rule that is not
    needed is removed. -/
theorem offerAll_spec (h : (parse s).diagnostics = []) (hs : Layout s ps) :
    ∃ fixes, Fix.offerAll (parse s) (parse s).analyze = .ok fixes ∧ Ordered fixes ∧
      (∀ f ∈ fixes, (parse s).Serves f) ∧
      ∀ r ∈ (parse s).rules, ¬(parse s).Reaches r.name → Fix.removeRule s r ∈ fixes := by
  obtain ⟨fixes, heq, hordered, hserves, -, hmem⟩ := Fix.offerAfter_spec
    (fun f hf => hf.forward h hs) (fun d hd => offer_serves h hd) (analyze_pairwise _)
    List.Pairwise.nil (List.forall_mem_nil _)
  refine ⟨fixes, heq, hordered, hserves, fun r hr hunneeded => ?_⟩
  -- the diagnostic for the rule names the first rule, which there is
  obtain ⟨start, hfirst⟩ : ∃ start, (parse s).firstRule? = some start := by
    rw [firstRule?]
    obtain ⟨q, qs, hq⟩ := List.exists_cons_of_ne_nil (List.ne_nil_of_mem hr)
    exact ⟨q, by rw [hq]; rfl⟩
  have hfound : Check.unreachableRule start r ∈ (parse s).analyze :=
    mem_analyze.mpr ⟨.unreachableRule,
      Check.mem_unreachableRules.mpr ⟨start, hfirst, r, hr, hunneeded, rfl⟩⟩
  refine hmem _ hfound _ ?_ ?_
  · rw [Fix.offerAt, isBroken_of_clean h, find_unreachableRule h hr]
    rfl
  · intro k hk hstart
    rw [(span_of_removal h hs hr).1] at hstart ⊢
    exact hk.stop_le h hs hr hstart

end Grammar

end EbnfKit
