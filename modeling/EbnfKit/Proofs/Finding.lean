import EbnfKit.Proofs.Lookup
import EbnfKit.Proofs.Requests

/-! # Finding — a fix is found where something is reported

    A fix is looked for by its span alone, and may be asked for where there is none.  Whether one
    is found is up to the check of the same kind, and what is found is up to the one place that
    the check reports there:

      offered at d   is an error   iff   the check for d.problem reports nothing at d.span

    To look only where the span lies, in the rules around it and the terms around it, is
    enough. -/

namespace EbnfKit

namespace Fix

/-! ## Looking by the span -/

variable {g : Grammar} {places : Places} {d : Diagnostic}

theorem offerAt_of_stale (hbroken : g.isBroken = false) {e : FixError}
    (h : find g places d = .error e) : offerAt g places d = .error e := by
  rw [offerAt, hbroken, h]
  rfl

/-- What is found and keeps comments is offered unless there is one under it. -/
theorem offerAt_of_found (hbroken : g.isBroken = false) (hkeeps : keepsComments d.problem = true)
    {f : Fix} (h : find g places d = .ok (some f)) :
    offerAt g places d = .ok (if holdsComment g.source f.span then none else some f) := by
  rw [offerAt, hbroken, h, hkeeps]
  show (if holdsComment g.source f.span then _ else _ : Except FixError (Option Fix)) = _
  split
  · rfl
  · rfl

theorem find_redundantParentheses (hproblem : d.problem = .redundantParentheses) :
    find g places d = (places.groups.find? fun q => q.span == d.span).elim
      (.error (.stale d.problem d.span)) fun q => .ok (some (dropParentheses q)) := by
  simp only [find, hproblem]
  cases places.groups.find? fun q => q.span == d.span with
  | none => rfl
  | some q => rfl

theorem find_simplifiableRepetition (hproblem : d.problem = .simplifiableRepetition) :
    find g places d = (places.runs.find? fun r => r.span == d.span).elim
      (.error (.stale d.problem d.span)) fun r => .ok (some (countRun r)) := by
  simp only [find, hproblem]
  cases places.runs.find? fun r => r.span == d.span with
  | none => rfl
  | some r => rfl

/-- Where a diagnostic is looked up by its span among places with different spans, it is stale if
    none of them has it, and else about that one. -/
theorem offerAt_lookup {β : Type} {found : List β} (span : β → Span) (fix : β → Fix)
    (hbroken : g.isBroken = false) (hkeeps : keepsComments d.problem = true)
    (hspan : ∀ q, (fix q).span = span q)
    (hfind : find g places d = (found.find? fun q => span q == d.span).elim
      (.error (.stale d.problem d.span)) fun q => .ok (some (fix q)))
    (hone : found.Pairwise fun q q' => span q ≠ span q') :
    (offerAt g places d = .error (.stale d.problem d.span) ↔ ∀ q ∈ found, span q ≠ d.span) ∧
      ∀ q ∈ found, span q = d.span → (∀ q' ∈ found, span q' = d.span → q' = q) ∧
        offerAt g places d = .ok (if holdsComment g.source d.span then none else some (fix q)) := by
  have honly : ∀ q ∈ found, ∀ q' ∈ found, span q = d.span → span q' = d.span → q' = q := by
    intro q hq q' hq' heq heq'
    rcases pairwise_cases hone hq hq' with hsame | hne | hne
    · exact hsame.symm
    · exact absurd (heq.trans heq'.symm) hne
    · exact absurd (heq'.trans heq.symm) hne
  cases hlook : found.find? fun q => span q == d.span with
  | none =>
      have hnone : ∀ q ∈ found, span q ≠ d.span := by
        intro q hq
        simpa using List.find?_eq_none.mp hlook q hq
      rw [hlook] at hfind
      exact ⟨iff_of_true (offerAt_of_stale hbroken hfind) hnone,
        fun q hq heq => absurd heq (hnone q hq)⟩
  | some q =>
      have hq := List.mem_of_find?_eq_some hlook
      have heq : span q = d.span := by simpa using List.find?_some hlook
      rw [hlook] at hfind
      have hoffer := offerAt_of_found hbroken hkeeps hfind
      rw [hspan, heq] at hoffer
      refine ⟨iff_of_false (fun hstale => ?_) fun hnone => hnone q hq heq, fun q' hq' heq' => ?_⟩
      · rw [hoffer] at hstale
        cases hstale
      · obtain rfl := honly q hq q' hq' heq heq'
        exact ⟨fun q'' hq'' => honly q' hq' q'' hq'' heq', hoffer⟩

/-! ## Looking around the span -/

/-- The groups in the rules that the span lies in, and the runs of the terms there that it
    lies in. -/
def Places.around (g : Grammar) (p : Span) : Places :=
  let nodes := (g.rules.filter fun r => r.mark.contains p).flatMap fun r => r.body.nodes
  ⟨(nodes.filterMap (·.factor?)).flatMap RedundantGroup.ofFactor,
    ((nodes.filterMap (·.term?)).filter fun t => t.mark.contains p).flatMap Run.ofTerm⟩

end Fix

/-- To leave out what has nothing that is looked for makes no difference. -/
theorem find?_flatMap_filter {α β : Type} {as : List α} {f : α → List β} {p : α → Bool} {q : β → Bool}
    (h : ∀ a ∈ as, ∀ b ∈ f a, q b = true → p a = true) :
    ((as.filter p).flatMap f).find? q = (as.flatMap f).find? q := by
  induction as with
  | nil => rfl
  | cons a as ih =>
      obtain ⟨ha, has⟩ := List.forall_mem_cons.mp h
      rw [List.flatMap_cons, List.find?_append, ← ih has]
      cases hp : p a with
      | true => rw [List.filter_cons_of_pos hp, List.flatMap_cons, List.find?_append]
      | false =>
          have hnone : (f a).find? q = none := by
            refine List.find?_eq_none.mpr fun b hb hq => ?_
            rw [ha b hb hq] at hp
            cases hp
          rw [List.filter_cons_of_neg (by rw [hp]; exact Bool.false_ne_true), hnone, Option.none_or]

namespace Grammar

variable {s : Text}

/-- What is written in another form in a rule lies in the rule. -/
theorem contains_of_body_fix (h : (parse s).diagnostics = []) {r : Rule Span}
    (hr : r ∈ (parse s).rules) {f : Fix} (hf : f ∈ r.body.fixes) : r.mark.contains f.span = true := by
  obtain ⟨hstart, -, hstop⟩ := bounds_of_body_fix h hr hf
  rw [Span.contains, Bool.and_eq_true, decide_eq_true_iff, decide_eq_true_iff]
  exact ⟨Nat.le_of_lt hstart, hstop⟩

/-- A run lies in its term. -/
theorem contains_of_mem_ofTerm (h : (parse s).diagnostics = []) {t : Term Span}
    (ht : .term t ∈ (parse s).nodes) {r : Run} (hr : r ∈ Run.ofTerm t) :
    t.mark.contains r.span = true := by
  obtain ⟨us, hus, hnode⟩ := node_derives ht
  obtain ⟨vs, hvs, hstands⟩ := hnode.fix_stands (List.mem_map_of_mem hr)
  have hlegible := (legible_of_clean h).sublist hus.sublist
  obtain ⟨hne, hspan⟩ := hstands.span (hlegible.sublist hvs.sublist)
  have hmark : t.mark = Span.over us := hnode.marks
  have hspan : r.span = Span.over vs := hspan
  rw [hmark, hspan, Span.contains, Bool.and_eq_true, decide_eq_true_iff, decide_eq_true_iff]
  exact Span.over_sublist hlegible.scanned hvs.sublist hne

/-- Around a span there are all groups with that span. -/
theorem find?_groups_around (h : (parse s).diagnostics = []) (p : Span) :
    (Fix.Places.around (parse s) p).groups.find? (fun q => q.span == p)
      = (parse s).redundantGroups.find? fun q => q.span == p := by
  simp only [Fix.Places.around, redundantGroups, nodes, List.filterMap_flatMap, List.flatMap_assoc]
  refine find?_flatMap_filter fun r hr q hq heq => ?_
  rw [← eq_of_beq heq]
  exact contains_of_body_fix h hr (Fix.dropParentheses_mem hq)

/-- Around a span there are all runs with that span. -/
theorem find?_runs_around (h : (parse s).diagnostics = []) (p : Span) :
    (Fix.Places.around (parse s) p).runs.find? (fun r => r.span == p)
      = (parse s).repeatedRuns.find? fun r => r.span == p := by
  have hterms : ∀ t ∈ ((((parse s).rules.filter fun r => r.mark.contains p).flatMap
      fun r => r.body.nodes).filterMap (·.term?)), .term t ∈ (parse s).nodes := by
    intro t ht
    obtain ⟨n, hn, hnt⟩ := List.mem_filterMap.mp ht
    obtain ⟨r, hr, hn⟩ := List.mem_flatMap.mp hn
    cases n <;> cases hnt
    exact List.mem_flatMap.mpr ⟨r, (List.mem_filter.mp hr).1, hn⟩
  rw [Fix.Places.around, find?_flatMap_filter fun t ht r hr heq => ?_]
  · simp only [repeatedRuns, nodes, List.filterMap_flatMap, List.flatMap_assoc]
    refine find?_flatMap_filter fun r hr q hq heq => ?_
    rw [← eq_of_beq heq]
    exact contains_of_body_fix h hr (Fix.countRun_mem hq)
  · rw [← eq_of_beq heq]
    exact contains_of_mem_ofTerm h (hterms t ht) hr

/-- Looking around the span of a diagnostic finds what looking everywhere does. -/
theorem offerAt_around (h : (parse s).diagnostics = []) (d : Diagnostic) :
    Fix.offerAt (parse s) (.around (parse s) d.span) d = Fix.offer (parse s) d := by
  have hfind : Fix.find (parse s) (.around (parse s) d.span) d
      = Fix.find (parse s) (.of (parse s)) d := by
    simp only [Fix.find, Fix.Places.of, find?_groups_around h, find?_runs_around h]
  rw [Fix.offer, Fix.offerAt, Fix.offerAt, hfind]

/-! ## Checks and fixes -/

/-- A group that can be dropped is the only primary with its span. -/
theorem primary_of_group {q : RedundantGroup} (hq : q ∈ (parse s).redundantGroups) :
    ∃ m m', ∀ p, .primary p ∈ (parse s).nodes ∧ p.mark = q.span ↔
      p = .bracketed q.span .group (.mk m (.mk m' q.inner []) []) := by
  obtain ⟨f, hf, hq⟩ := List.mem_flatMap.mp hq
  obtain ⟨n, hn, hnf⟩ := List.mem_filterMap.mp hf
  obtain ⟨m, m', hp⟩ := RedundantGroup.exists_operand hq
  have hmem : .primary (.bracketed q.span .group (.mk m (.mk m' q.inner []) [])) ∈ (parse s).nodes := by
    cases n <;> cases hnf
    exact mem_nodes_of_child hn (List.mem_map_of_mem hp)
  refine ⟨m, m', fun p => ⟨fun ⟨hmem', hmark⟩ => ?_, ?_⟩⟩
  · exact Node.primary.inj (node_of_mark hmem' hmem rfl hmark)
  · rintro rfl
    exact ⟨hmem, rfl⟩

/-- **Checks and fixes agree.**  In a text without syntax errors a diagnostic for parentheses is
    stale exactly if the check reports none at its span; else the primary there is the group
    reported, and what is offered is the factor inside.  In the same way one for a run is stale,
    or what is offered is the run with that span, counted.  Looking only around the span makes no
    difference, no two reports of one kind have the same span, and for each of them there is an
    answer. -/
theorem offer_agrees (s : Text) (h : (parse s).diagnostics = []) :
    (∀ d, d.problem = .redundantParentheses →
      (Fix.offer (parse s) d = .error (.stale d.problem d.span) ↔
        ∀ d' ∈ Check.redundantGroups (parse s), d'.span ≠ d.span) ∧
      ∀ q ∈ (parse s).redundantGroups, q.span = d.span →
        (∃ m m', ∀ p, .primary p ∈ (parse s).nodes ∧ p.mark = d.span ↔
          p = .bracketed d.span .group (.mk m (.mk m' q.inner []) [])) ∧
        Fix.offer (parse s) d = .ok (if Fix.holdsComment s d.span then none else
          some ⟨"Remove redundant parentheses", d.span, q.inner.render⟩)) ∧
    (∀ d, d.problem = .simplifiableRepetition →
      (Fix.offer (parse s) d = .error (.stale d.problem d.span) ↔
        ∀ d' ∈ Check.repeatedRuns (parse s), d'.span ≠ d.span) ∧
      ∀ r ∈ (parse s).repeatedRuns, r.span = d.span →
        (∀ r' ∈ (parse s).repeatedRuns, r'.span = d.span → r' = r) ∧
        Fix.offer (parse s) d = .ok (if Fix.holdsComment s d.span then none else
          some ⟨s!"Replace with `{String.ofList r.counted}`", d.span, r.counted⟩)) ∧
    (∀ d, Fix.offerAt (parse s) (.around (parse s) d.span) d = Fix.offer (parse s) d) ∧
    ((parse s).analyze.Pairwise fun d d' => d.problem = d'.problem → d.span ≠ d'.span) ∧
    ∀ d ∈ (parse s).analyze, ∃ o, Fix.offer (parse s) d = .ok o := by
  refine ⟨fun d hproblem => ?_, fun d hproblem => ?_, offerAt_around h, analyze_apart s,
    fun d hd => ?_⟩
  · obtain ⟨hstale, hfound⟩ := Fix.offerAt_lookup RedundantGroup.span Fix.dropParentheses
      (isBroken_of_clean h) (by rw [hproblem]; rfl) (fun _ => rfl)
      (@Fix.find_redundantParentheses _ (.of (parse s)) d hproblem) (redundantGroups_pairwise s)
    rw [Check.redundantGroups, List.forall_mem_map]
    refine ⟨hstale, fun q hq hspan => ⟨?_, ?_⟩⟩
    · rw [← hspan]
      exact primary_of_group hq
    · rw [source_parse] at hfound
      rw [Fix.offer, (hfound q hq hspan).2, ← hspan]
      rfl
  · obtain ⟨hstale, hfound⟩ := Fix.offerAt_lookup Run.span Fix.countRun (isBroken_of_clean h)
      (by rw [hproblem]; rfl) (fun _ => rfl)
      (@Fix.find_simplifiableRepetition _ (.of (parse s)) d hproblem) (repeatedRuns_pairwise s)
    rw [Check.repeatedRuns, List.forall_mem_map]
    refine ⟨hstale, fun r hr hspan => ⟨(hfound r hr hspan).1, ?_⟩⟩
    rw [source_parse] at hfound
    rw [Fix.offer, (hfound r hr hspan).2, ← hspan]
    rfl
  · obtain ⟨o, hoffer, -⟩ := offer_serves h hd
    exact ⟨o, hoffer⟩

/-- Parentheses in parentheses, asked for with other words than the check's, parentheses around a
    comment, and a string that has none. -/
theorem offer_agrees_nested :
    ∃ s, s = "a = ( ( 'x' ) ) , b , b ; b = ( (*c*) 'é' ) ;".toList ∧ (parse s).diagnostics = [] ∧
      Fix.offer (parse s) ⟨.redundantParentheses, ⟨8, 11⟩, ""⟩
        = .error (.stale .redundantParentheses ⟨8, 11⟩) ∧
      Fix.offer (parse s) ⟨.redundantParentheses, ⟨6, 13⟩, ""⟩
        = .ok (some ⟨"Remove redundant parentheses", ⟨6, 13⟩, "'x'".toList⟩) ∧
      Fix.offer (parse s) ⟨.redundantParentheses, ⟨30, 44⟩, ""⟩ = .ok none ∧
      Fix.offer (parse s) ⟨.simplifiableRepetition, ⟨18, 23⟩, ""⟩
        = .ok (some ⟨"Replace with `2 * b`", ⟨18, 23⟩, "2 * b".toList⟩) ∧
      (parse s).analyze.length = 4 ∧
      ((parse s).analyze.Pairwise fun d d' => d.problem = d'.problem → d.span ≠ d'.span) ∧
      ∀ d ∈ (parse s).analyze, ∃ o, Fix.offer (parse s) d = .ok o := by
  have hclean : (parse "a = ( ( 'x' ) ) , b , b ; b = ( (*c*) 'é' ) ;".toList).diagnostics = [] := by
    decide +kernel
  obtain ⟨hgroups, hruns, -, hapart, hanswers⟩ := offer_agrees _ hclean
  have hreported : (Check.redundantGroups
      (parse "a = ( ( 'x' ) ) , b , b ; b = ( (*c*) 'é' ) ;".toList)).map Diagnostic.span
      = [⟨4, 15⟩, ⟨6, 13⟩, ⟨30, 44⟩] := by
    decide +kernel
  have hinner : ((⟨6, 13⟩, "'x'".toList) : Span × Text) ∈
      (parse "a = ( ( 'x' ) ) , b , b ; b = ( (*c*) 'é' ) ;".toList).redundantGroups.map
        fun q => (q.span, q.inner.render) := by
    decide +kernel
  have haround : (⟨30, 44⟩ : Span) ∈
      (parse "a = ( ( 'x' ) ) , b , b ; b = ( (*c*) 'é' ) ;".toList).redundantGroups.map
        RedundantGroup.span := by
    decide +kernel
  have hcounted : ((⟨18, 23⟩, "2 * b".toList) : Span × Text) ∈
      (parse "a = ( ( 'x' ) ) , b , b ; b = ( (*c*) 'é' ) ;".toList).repeatedRuns.map
        fun r => (r.span, r.counted) := by
    decide +kernel
  have hlength : (parse "a = ( ( 'x' ) ) , b , b ; b = ( (*c*) 'é' ) ;".toList).analyze.length = 4 := by
    decide +kernel
  refine ⟨_, rfl, hclean, (hgroups _ rfl).1.mpr ?_, ?_, ?_, ?_, hlength, hapart, hanswers⟩
  · rw [← @List.forall_mem_map _ _ Diagnostic.span _ fun span => span ≠ ⟨8, 11⟩, hreported]
    decide
  · obtain ⟨q, hq, heq⟩ := List.mem_map.mp hinner
    obtain ⟨hspan, hrender⟩ := Prod.mk.inj heq
    rw [((hgroups _ rfl).2 q hq hspan).2, hrender]
    exact congrArg _ (if_neg (by decide +kernel))
  · obtain ⟨q, hq, hspan⟩ := List.mem_map.mp haround
    rw [((hgroups _ rfl).2 q hq hspan).2]
    exact congrArg _ (if_pos (by decide +kernel))
  · obtain ⟨r, hr, heq⟩ := List.mem_map.mp hcounted
    obtain ⟨hspan, htext⟩ := Prod.mk.inj heq
    rw [((hruns _ rfl).2 r hr hspan).2, htext]
    exact congrArg _ (if_neg (by decide +kernel))

end Grammar

end EbnfKit
