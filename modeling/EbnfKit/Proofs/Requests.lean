import EbnfKit.Proofs.Offering
import EbnfKit.Proofs.Slices
import EbnfKit.Proofs.Substitution

/-! # Requests — fixes for diagnostics from anywhere

    Fixes can be asked for with diagnostics that no check found: stale ones, repeated ones,
    ones made up, in any order.  What is found for one of them still stands over a part of
    the text, for it is a rule or a part of one, and of fixes that overlap the first is kept:

      f is found for d     implies   s.slice? f.span = some x
      f is kept before g   implies   f and g do not overlap

    So whatever is offered can be applied.  This holds of broken grammars too. -/

namespace EbnfKit

/-! ## Fixes kept one by one -/

namespace Fix

variable {g : Grammar} {places : Places} {kept fixes : List Fix}

/-- No two of the fixes overlap. -/
def Apart (fixes : List Fix) : Prop :=
  fixes.Pairwise fun f g => f.span.overlaps g.span = false

theorem Apart.keep (h : Apart kept) (f : Fix) : Apart (keep kept f) := by
  rw [Fix.keep]
  split
  · exact h
  · rename_i hnone
    refine List.pairwise_append.mpr ⟨h, List.pairwise_singleton _ _, fun k hk f' hf' => ?_⟩
    rw [List.mem_singleton.mp hf', ← Bool.not_eq_true]
    exact fun hover => hnone (List.any_eq_true.mpr ⟨k, hk, hover⟩)

/-- A fix is kept behind the others, or left out for one of them. -/
theorem keep_cases (kept : List Fix) (f : Fix) :
    keep kept f = kept ++ [f] ∨ keep kept f = kept ∧ ∃ k ∈ kept, k.span.overlaps f.span = true := by
  rw [keep]
  split
  · rename_i hany
    exact Or.inr ⟨rfl, List.any_eq_true.mp hany⟩
  · exact Or.inl rfl

theorem isPrefix_keep (kept : List Fix) (f : Fix) : kept <+: keep kept f := by
  rcases keep_cases kept f with heq | ⟨heq, -⟩
  · rw [heq]
    exact List.prefix_append kept [f]
  · rw [heq]

/-- Whatever is kept stays in front, and the fixes stay apart. -/
theorem offerAfter_keeps {ds : List Diagnostic} :
    ∀ {kept : List Fix}, offerAfter g places kept ds = .ok fixes →
      kept <+: fixes ∧ (Apart kept → Apart fixes) := by
  induction ds with
  | nil =>
      intro kept h
      cases h
      exact ⟨List.prefix_refl fixes, id⟩
  | cons d ds ih =>
      intro kept h
      rw [offerAfter] at h
      split at h
      · cases h
      · exact ih h
      · rename_i f _
        obtain ⟨hstays, hapart⟩ := ih h
        exact ⟨(isPrefix_keep kept f).trans hstays, fun hkept => hapart (hkept.keep f)⟩

/-- When it is the turn of a diagnostic, the fixes for those before it are kept. -/
theorem offerAfter_turn {before after : List Diagnostic} {d : Diagnostic} {f : Fix}
    (hf : offerAt g places d = .ok (some f)) :
    ∀ {kept : List Fix}, offerAfter g places kept (before ++ d :: after) = .ok fixes →
      ∃ kept', offerAfter g places kept before = .ok kept' ∧ keep kept' f <+: fixes := by
  induction before with
  | nil =>
      intro kept h
      rw [List.nil_append, offerAfter, hf] at h
      exact ⟨kept, rfl, (offerAfter_keeps h).1⟩
  | cons d' before ih =>
      intro kept h
      rw [List.cons_append, offerAfter] at h
      rw [offerAfter]
      cases hd' : offerAt g places d' with
      | error e =>
          rw [hd'] at h
          cases h
      | ok o =>
          rw [hd'] at h
          cases o with
          | none => exact ih h
          | some f' => exact ih h

/-- What is offered was found. -/
theorem find_of_offerAt {d : Diagnostic} {f : Fix} (h : offerAt g places d = .ok (some f)) :
    find g places d = .ok (some f) := by
  rw [offerAt] at h
  split at h
  · cases h
  · split at h
    · cases h
    · cases h
    · rename_i hfind
      split at h
      · cases h
      · rw [hfind]
        exact h

/-! ## What is found -/

/-- Whatever is found removes a rule or rewrites a part of one. -/
theorem rule_of_find {d : Diagnostic} {f : Fix} (h : find g (.of g) d = .ok (some f)) :
    ∃ r ∈ g.rules, f = removeRule g.source r ∨ f ∈ r.body.fixes := by
  rw [find] at h
  split at h
  · split at h
    · rename_i r hr
      cases h
      exact ⟨r, List.mem_of_find?_eq_some hr, Or.inl rfl⟩
    · cases h
  · split at h
    · rename_i q hq
      cases h
      obtain ⟨r, hr, hf⟩ := Grammar.exists_rule_dropParentheses (List.mem_of_find?_eq_some hq)
      exact ⟨r, hr, Or.inr hf⟩
    · cases h
  · split at h
    · rename_i q hq
      cases h
      obtain ⟨r, hr, hf⟩ := Grammar.exists_rule_countRun (List.mem_of_find?_eq_some hq)
      exact ⟨r, hr, Or.inr hf⟩
    · cases h
  · cases h

variable {s : Text} {f : Fix}

theorem IsOver.forward {offset : Nat} (h : f.IsOver offset s) : f.Forward := by
  obtain ⟨before, under, after, -, -, hstop⟩ := h
  rw [Forward, hstop]
  exact Nat.le_add_right _ _

/-- Where a fix stands there is a slice. -/
theorem IsOver.slice (h : f.IsOver 0 s) : ∃ x, s.slice? f.span = some x := by
  obtain ⟨before, under, after, rfl, hstart, hstop⟩ := h
  rw [Nat.zero_add] at hstart
  rw [hstart] at hstop
  refine ⟨under, ?_⟩
  rw [show f.span = ⟨_, _⟩ from congrArg₂ Span.mk hstart hstop]
  exact Text.slice?_append before under after

/-- Fixes that stand over parts of the text and are apart can be applied. -/
theorem apply_of_isOver {fixes : List Fix} (hover : ∀ f ∈ fixes, f.IsOver 0 s)
    (hapart : Apart fixes) : apply s fixes = .ok (substituted fixes 0 s) := by
  have hforward : ∀ f ∈ fixes, f.Forward := fun f hf => (hover f hf).forward
  refine apply_of_apart hforward hover (hapart.imp_of_mem fun hf hg hfg => ?_)
  rw [← Span.overlaps_iff_clashes (hforward _ hf) (hforward _ hg), hfg]
  exact Bool.false_ne_true

end Fix

/-! ## Where they stand -/

namespace Grammar

variable {s : Text} {r : Rule Span}

/-- A rule stands in the text. -/
theorem exists_rule_text (hr : r ∈ (parse s).rules) : ∃ front x back, s = front ++ (x ++ back) ∧
    r.mark = ⟨Text.size front, Text.size front + Text.size x⟩ := by
  obtain ⟨used, hused, hfits⟩ := (parse_amid s).stretch hr
  obtain ⟨x, h⟩ := exists_excerpt_of_fits hused hfits (List.infix_refl used)
    (Parser.rule_ne_nil hfits.derives)
  obtain ⟨front, back, htext, hsize⟩ := h.stands
  refine ⟨front, x, back, htext, ?_⟩
  rw [hfits.derives.mark_eq, h.span, hsize]

/-- Where a rule stops the text can be cut. -/
theorem exists_halves (hr : r ∈ (parse s).rules) : ∃ halves, s.cut? r.mark.stop = some halves := by
  obtain ⟨front, x, back, rfl, hmark⟩ := exists_rule_text hr
  refine ⟨(front ++ x, back), ?_⟩
  rw [hmark, ← Text.size_append, ← List.append_assoc, Text.cut?_append]

/-- The removal of a rule takes its text, and perhaps a line break behind it. -/
theorem isOver_removeRule (hr : r ∈ (parse s).rules) : (Fix.removeRule s r).IsOver 0 s := by
  obtain ⟨front, x, back, htext, hmark⟩ := exists_rule_text hr
  have hrest : ((s.cut? r.mark.stop).map (·.2)).getD [] = back := by
    rw [hmark, htext, ← Text.size_append, ← List.append_assoc, Text.cut?_append]
    rfl
  have hspan : (Fix.removeRule s r).span = Fix.withLineBreak s r.mark := rfl
  rw [Fix.withLineBreak, hrest] at hspan
  cases hbreak : Fix.lineBreak? back with
  | none =>
      rw [hbreak] at hspan
      refine ⟨front, x, back, htext, ?_, ?_⟩
      · rw [hspan, hmark, Nat.zero_add]
      · rw [hspan, hmark]
  | some n =>
      obtain ⟨w, after, rfl, hn, -⟩ := Fix.lineBreak?_eq_some hbreak
      rw [hbreak] at hspan
      refine ⟨front, x ++ w, after, by rw [htext, List.append_assoc], ?_, ?_⟩
      · rw [hspan, hmark, Nat.zero_add]
      · rw [hspan, hmark, Text.size_append, hn, ← Nat.add_assoc]

/-- A fix of a rule stands over the tokens that it rewrites. -/
theorem isOver_body_fix (hr : r ∈ (parse s).rules) {f : Fix} (hf : f ∈ r.body.fixes) :
    f.IsOver 0 s := by
  obtain ⟨used, hused, hfits⟩ := (parse_amid s).stretch hr
  obtain ⟨as, bs, cs, rfl, -, -, hbody⟩ := hfits.derives.body
  obtain ⟨us, hus, hstands⟩ := fixes_stand (nodes_stand.expressions r.body bs hbody) f hf
  have hus := hus.trans (List.infix_append as bs cs)
  have hlegible : Legible us :=
    ⟨(significant_scanned s).sublist (hus.trans hused).sublist,
      fun t ht => wholes_of_fits hused.sublist hfits t (hus.subset ht)⟩
  obtain ⟨hne, hspan⟩ := hstands.span hlegible
  obtain ⟨x, h⟩ := exists_excerpt_of_fits hused hfits hus hne
  obtain ⟨front, back, htext, hsize⟩ := h.stands
  refine ⟨front, x, back, htext, ?_, ?_⟩
  · rw [hspan, hsize, Nat.zero_add]
  · rw [hspan, h.span]

/-- Whatever is found stands over a part of the text. -/
theorem isOver_of_find {d : Diagnostic} {f : Fix}
    (h : Fix.find (parse s) (.of (parse s)) d = .ok (some f)) : f.IsOver 0 s := by
  obtain ⟨r, hr, rfl | hf⟩ := Fix.rule_of_find h
  · rw [source_parse]
    exact isOver_removeRule hr
  · exact isOver_body_fix hr hf

/-- **Whatever is offered can be applied.**  For any diagnostics, the text is cut only between
    characters: where a rule stops, and around what is found.  Where there is an answer at all, the
    fixes are for diagnostics that were asked for and do not overlap, each that could have been
    offered and was not overlaps one kept before it, and all of them can be applied at once. -/
theorem offerAll_applies (s : Text) :
    (∀ r ∈ (parse s).rules, ∃ halves, (parse s).source.cut? r.mark.stop = some halves) ∧
    (∀ d f, Fix.find (parse s) (.of (parse s)) d = .ok (some f) →
      ∃ x, (parse s).source.slice? f.span = some x) ∧
    ∀ ds fixes, Fix.offerAll (parse s) ds = .ok fixes →
      (∀ f ∈ fixes, ∃ d ∈ ds, Fix.offer (parse s) d = .ok (some f)) ∧
      (fixes.Pairwise fun f g => f.span.overlaps g.span = false) ∧
      (∀ before d after f, ds = before ++ d :: after → Fix.offer (parse s) d = .ok (some f) →
        ∃ kept, Fix.offerAll (parse s) before = .ok kept ∧
          (kept ++ [f] <+: fixes ∨
            kept <+: fixes ∧ ∃ k ∈ kept, k.span.overlaps f.span = true)) ∧
      Fix.apply s fixes = .ok (Fix.substituted fixes 0 s) := by
  rw [source_parse]
  refine ⟨fun r hr => exists_halves hr, fun d f h => (isOver_of_find h).slice, ?_⟩
  intro ds fixes h
  have hmem : ∀ f ∈ fixes, ∃ d ∈ ds, Fix.offer (parse s) d = .ok (some f) := by
    intro f hf
    exact (Fix.offerAfter_mem h f hf).resolve_left fun hnone => nomatch hnone
  have hapart : Fix.Apart fixes := (Fix.offerAfter_keeps h).2 List.Pairwise.nil
  refine ⟨hmem, hapart, ?_, Fix.apply_of_isOver (fun f hf => ?_) hapart⟩
  · rintro before d after f rfl hf
    obtain ⟨kept, hkept, hstays⟩ := Fix.offerAfter_turn hf h
    refine ⟨kept, hkept, ?_⟩
    rcases Fix.keep_cases kept f with heq | ⟨heq, hover⟩
    · rw [heq] at hstays
      exact Or.inl hstays
    · rw [heq] at hstays
      exact Or.inr ⟨hstays, hover⟩
  · obtain ⟨d, -, hoffer⟩ := hmem f hf
    exact isOver_of_find (Fix.find_of_offerAt hoffer)

/-- Diagnostics made up for a rule that nothing needs, for the parentheses inside, which are asked
    for again, for those outside, and for a name where there is no text. -/
theorem offerAll_applies_made_up :
    ∃ s ds fixes outside, s = "a = ( ( 'é' ) ) ; c = 'y' ;".toList ∧
      ds = [⟨.unreachableRule, ⟨19, 20⟩, ""⟩, ⟨.redundantParentheses, ⟨6, 14⟩, "?"⟩,
        ⟨.redundantParentheses, ⟨4, 16⟩, ""⟩, ⟨.undefinedRule, ⟨99, 3⟩, ""⟩,
        ⟨.redundantParentheses, ⟨6, 14⟩, "!"⟩] ∧
      (∃ r ∈ (parse s).rules, r.mark = ⟨19, 28⟩ ∧
        ∃ halves, (parse s).source.cut? r.mark.stop = some halves) ∧
      outside.span = ⟨4, 16⟩ ∧
      Fix.find (parse s) (.of (parse s)) ⟨.redundantParentheses, ⟨4, 16⟩, ""⟩ = .ok (some outside) ∧
      (∃ x, (parse s).source.slice? outside.span = some x) ∧
      Fix.offerAll (parse s) ds = .ok fixes ∧ fixes.map Fix.span = [⟨19, 28⟩, ⟨6, 14⟩] ∧
      (∃ kept, Fix.offerAll (parse s) (ds.take 2) = .ok kept ∧
        (kept ++ [outside] <+: fixes ∨
          kept <+: fixes ∧ ∃ k ∈ kept, k.span.overlaps outside.span = true)) ∧
      Fix.apply s fixes = .ok (Fix.substituted fixes 0 s) ∧
      Fix.substituted fixes 0 s = "a = ( 'é' ) ; ".toList := by
  obtain ⟨hrules, hfound, happlies⟩ := offerAll_applies "a = ( ( 'é' ) ) ; c = 'y' ;".toList
  generalize hs : "a = ( ( 'é' ) ) ; c = 'y' ;".toList = s at hrules hfound happlies
  have hmarks : (parse s).rules.map Rule.mark = [⟨0, 18⟩, ⟨19, 28⟩] := by
    rw [← hs]
    decide +kernel
  have hoffer : (Fix.offer (parse s) ⟨.redundantParentheses, ⟨4, 16⟩, ""⟩).toOption.join.map Fix.span
      = some ⟨4, 16⟩ := by
    rw [← hs]
    decide +kernel
  have hoffers : (Fix.offerAll (parse s) [⟨.unreachableRule, ⟨19, 20⟩, ""⟩,
      ⟨.redundantParentheses, ⟨6, 14⟩, "?"⟩, ⟨.redundantParentheses, ⟨4, 16⟩, ""⟩,
      ⟨.undefinedRule, ⟨99, 3⟩, ""⟩, ⟨.redundantParentheses, ⟨6, 14⟩, "!"⟩]).toOption.map
        (fun fs => (fs.map Fix.span, Fix.substituted fs 0 s))
      = some ([⟨19, 28⟩, ⟨6, 14⟩], "a = ( 'é' ) ; ".toList) := by
    rw [← hs]
    decide +kernel
  obtain ⟨r, hr, hmark⟩ : ∃ r ∈ (parse s).rules, r.mark = ⟨19, 28⟩ := by
    rw [← List.mem_map, hmarks]
    decide
  cases hone : Fix.offer (parse s) ⟨.redundantParentheses, ⟨4, 16⟩, ""⟩ with
  | error e =>
      rw [hone] at hoffer
      cases hoffer
  | ok o =>
      rw [hone] at hoffer
      obtain ⟨outside, rfl, hspan⟩ := Option.map_eq_some_iff.mp hoffer
      have hfind := Fix.find_of_offerAt hone
      revert hoffers
      cases hall : Fix.offerAll (parse s) _ with
      | error e => exact fun h => nomatch h
      | ok fixes =>
          intro h
          obtain ⟨hspans, htext⟩ := Prod.mk.inj (Option.some.inj h)
          obtain ⟨-, -, hmiddle, happly⟩ := happlies _ fixes hall
          exact ⟨s, _, fixes, outside, rfl, rfl, ⟨r, hr, hmark, hrules r hr⟩, hspan, hfind,
            hfound _ outside hfind, hall, hspans, hmiddle [_, _] _ [_, _] outside rfl hone, happly,
            htext⟩

end Grammar

end EbnfKit
