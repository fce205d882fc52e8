import EbnfKit.Proofs.Places
import EbnfKit.Proofs.Removal
import EbnfKit.Proofs.RoundTrip

/-! # Clean texts — where the rules stand in them

    A text without syntax errors is laid out in pieces, all of its significant tokens can be
    printed, and its rules stand one behind the other:

      r before r'   implies   r.mark.stop ≤ r'.mark.start

    So a rule is known by where it starts.  Its fixes stand within it, but for the line break
    that goes with a removal. -/

namespace EbnfKit

/-! ## Rules and their tokens -/

theorem Rule.DerivesAll.stretch {τ α : Type} {d : Reading τ α} {ts : List τ} {rs : List (Rule α)}
    (h : Rule.DerivesAll d ts rs) {r : Rule α} (hr : r ∈ rs) :
    ∃ us, us <:+: ts ∧ Rule.Derives d us r := by
  induction h with
  | nil => cases hr
  | @cons us r' vs rs hr' _ ih =>
      rcases List.mem_cons.mp hr with rfl | hr
      · exact ⟨us, (List.prefix_append us vs).isInfix, hr'⟩
      · obtain ⟨ws, hws, hderives⟩ := ih hr
        exact ⟨ws, hws.trans (List.suffix_append us vs).isInfix, hderives⟩

theorem Rule.DerivesAll.sublist {τ α : Type} {d : Reading τ α} {ts : List τ} {rs : List (Rule α)}
    (h : Rule.DerivesAll d ts rs) {r : Rule α} (hr : r ∈ rs) :
    ∃ us, us.Sublist ts ∧ Rule.Derives d us r := by
  obtain ⟨us, hus, hderives⟩ := h.stretch hr
  exact ⟨us, hus.sublist, hderives⟩

/-- A rule starts with its name. -/
theorem Rule.Derives.nameMark_start {ts : List Token} {r : Rule Span}
    (h : Rule.Derives .placed ts r) : r.nameMark.start = r.mark.start := by
  cases h with
  | mk _ _ _ _ hnm hm =>
      rw [show _ = _ from hnm, show _ = _ from hm]
      rfl

theorem Rule.DerivesAll.apart {ts : List Token} {rs : List (Rule Span)}
    (h : Rule.DerivesAll .placed ts rs) (hts : Scanned ts) :
    rs.Pairwise fun r r' => r.mark.stop ≤ r'.mark.start := by
  induction h with
  | nil => exact List.Pairwise.nil
  | @cons us r vs rs hr hrs ih =>
      refine List.Pairwise.cons (fun r' hr' => ?_) (ih hts.right)
      obtain ⟨ws, hws, hderives⟩ := hrs.sublist hr'
      rw [hr.mark_eq, hderives.mark_eq]
      exact Span.over_stop_le_start (hts.sublist (hws.append_left us)) (Parser.rule_ne_nil hr)
        (Parser.rule_ne_nil hderives)

/-- The tokens of a body stand between the name and the semicolon. -/
theorem Rule.Derives.body {ts : List Token} {r : Rule Span} (h : Rule.Derives .placed ts r) :
    ∃ as us bs, ts = as ++ us ++ bs ∧ as ≠ [] ∧ bs ≠ [] ∧ Expression.Derives .placed us r.body := by
  cases h with
  | @mk x e us c _ _ _ _ _ hbody _ _ _ =>
      exact ⟨[x, e], us, [c], rfl, List.cons_ne_nil _ _, List.cons_ne_nil _ _, hbody⟩

/-- A fix within the body of a rule rewrites tokens of the rule. -/
theorem Rule.Derives.rewrites {ts : List Token} {r : Rule Span} (h : Rule.Derives .placed ts r)
    (hts : Legible ts) {f : Fix} (hf : f ∈ r.body.fixes) : f.Rewrites ts := by
  obtain ⟨as, us, bs, rfl, -, -, hbody⟩ := h.body
  have hus : us.Sublist (as ++ us ++ bs) := (List.infix_append as us bs).sublist
  exact (fixes_rewrite.expressions r.body us (hts.sublist hus) hbody f hf).mono hus

namespace Grammar

variable {s : Text}

theorem source_parse (s : Text) : (parse s).source = s := by
  show (tokenize s).flatMap (·.text) = s
  have htext : ∀ ts : List Token, ts.flatMap (·.text) = (ts.map Token.lexeme).flatMap (·.text) := by
    intro ts
    rw [List.flatMap_map]
    rfl
  rw [tokenize_eq, List.flatMap_append, htext, map_lexeme_tokensAt, lexemes_texts]
  exact List.append_nil s

theorem isBroken_of_clean (h : (parse s).diagnostics = []) : (parse s).isBroken = false := by
  rw [isBroken, h]
  rfl

/-- A text without syntax errors leaves nothing open. -/
theorem finished_of_clean (h : (parse s).diagnostics = []) : Finished s := by
  obtain ⟨-, -, hstrings, hcomments⟩ := accepted_of_clean h
  rw [kinds_tokenize] at hcomments
  refine finished_of_closed hcomments fun l hl hk => ?_
  rw [stringsClosed_significant] at hstrings
  rw [← map_lexeme_tokensAt 0 (lexemes s)] at hl
  obtain ⟨t, ht, rfl⟩ := List.mem_map.mp hl
  refine hstrings t ?_ hk
  rw [tokenize_eq]
  exact List.mem_append_left _ ht

theorem legible_of_clean (h : (parse s).diagnostics = []) : Legible (significant s) := by
  obtain ⟨-, hcounts, hstrings, -⟩ := accepted_of_clean h
  exact ⟨significant_scanned s, fun t ht => ⟨whole_of_closed ht (hstrings t ht), hcounts t ht⟩⟩

theorem derives_of_clean (h : (parse s).diagnostics = []) :
    Rule.DerivesAll .placed (significant s) (parse s).rules :=
  (accepted_of_clean h).1.1

/-- Every node of a rule derives a stretch of the tokens. -/
theorem node_derives {n : Node Span} (hn : n ∈ (parse s).nodes) :
    ∃ us, us <:+: significant s ∧ n.Derives .placed us := by
  obtain ⟨r, hr, hn⟩ := List.mem_flatMap.mp hn
  obtain ⟨ts, hts, hfits⟩ := (parse_amid s).stretch hr
  obtain ⟨as, us, bs, rfl, -, -, hbody⟩ := hfits.derives.body
  obtain ⟨vs, hvs, hnode⟩ := nodes_stand.expressions r.body us hbody n hn
  exact ⟨vs, (hvs.trans (List.infix_append as us bs)).trans hts, hnode⟩

/-- Rules that start at the same place are the same. -/
theorem eq_of_start (h : (parse s).diagnostics = []) {r r' : Rule Span} (hr : r ∈ (parse s).rules)
    (hr' : r' ∈ (parse s).rules) (hstart : r.mark.start = r'.mark.start) : r = r' := by
  have hforward : ∀ q ∈ (parse s).rules, q.mark.start < q.mark.stop := by
    intro q hq
    obtain ⟨us, hus, hderives⟩ := (derives_of_clean h).sublist hq
    rw [hderives.mark_eq]
    exact Span.over_forward ((significant_scanned s).sublist hus) (Parser.rule_ne_nil hderives)
  have h1 := hforward r hr
  have h2 := hforward r' hr'
  rcases pairwise_cases ((derives_of_clean h).apart (significant_scanned s)) hr hr' with
    heq | hbefore | hbehind
  · exact heq
  · omega
  · omega

/-! ## Fixes of a rule -/

/-- A fix within the body of a rule stands between the name of the rule and its end. -/
theorem bounds_of_body_fix (h : (parse s).diagnostics = []) {r : Rule Span}
    (hr : r ∈ (parse s).rules) {f : Fix} (hf : f ∈ r.body.fixes) :
    r.mark.start < f.span.start ∧ f.span.start < f.span.stop ∧ f.span.stop ≤ r.mark.stop := by
  obtain ⟨ts, hts, hderives⟩ := (derives_of_clean h).sublist hr
  have hlegible := (legible_of_clean h).sublist hts
  obtain ⟨as, us, bs, rfl, has, -, hbody⟩ := hderives.body
  obtain ⟨vs, -, hne, hvs, hspan, -, -⟩ :=
    fixes_rewrite.expressions r.body us hlegible.left.right hbody f hf
  have hsub : (as ++ vs).Sublist (as ++ us ++ bs) :=
    (hvs.append_left as).trans (List.sublist_append_left _ bs)
  have hscanned := hlegible.scanned.sublist hsub
  have hmark := hderives.mark_eq
  obtain ⟨hstart, hstop⟩ := Span.over_sublist hlegible.scanned hsub (by simp [hne])
  rw [← hmark, Span.over_append has hne] at hstart hstop
  have hname := Span.over_forward hscanned.left has
  have hbehind := Span.over_stop_le_start hscanned has hne
  have hforward := Span.over_forward hscanned.right hne
  simp only at hstart hstop
  rw [hspan]
  omega

/-- A rule stops at a boundary of the layout. -/
theorem isBoundary_rule_stop (h : (parse s).diagnostics = []) {ps : List Piece} (hs : Layout s ps)
    {r : Rule Span} (hr : r ∈ (parse s).rules) : Piece.IsBoundary 0 ps r.mark.stop := by
  obtain ⟨ts, hts, hderives⟩ := (derives_of_clean h).sublist hr
  have hne := Parser.rule_ne_nil hderives
  rw [hderives.mark_eq, Span.over_stop hne]
  refine (Piece.isBoundary_token ?_).2
  rw [hs.tokens]
  exact hts.subset (List.getLast_mem hne)

/-- The removal of a rule starts where the rule does, and stops behind it, at a boundary and
    before whatever token follows. -/
theorem span_of_removal (h : (parse s).diagnostics = []) {ps : List Piece} (hs : Layout s ps)
    {r : Rule Span} (hr : r ∈ (parse s).rules) :
    (Fix.removeRule s r).span.start = r.mark.start ∧ r.mark.start < r.mark.stop ∧
      r.mark.stop ≤ (Fix.removeRule s r).span.stop ∧
      Piece.IsBoundary 0 ps (Fix.removeRule s r).span.stop ∧
      ∀ t ∈ significant s, r.mark.stop ≤ t.span.start →
        (Fix.removeRule s r).span.stop ≤ t.span.start := by
  obtain ⟨ts, hts, hderives⟩ := (derives_of_clean h).sublist hr
  have hne := Parser.rule_ne_nil hderives
  have hforward := Span.over_forward ((significant_scanned s).sublist hts) hne
  obtain ⟨hstart, hremoval⟩ := Fix.removeRule_span hs (isBoundary_rule_stop h hs hr)
  rw [← hderives.mark_eq] at hforward
  exact ⟨hstart, hforward, hremoval⟩

end Grammar

end EbnfKit
