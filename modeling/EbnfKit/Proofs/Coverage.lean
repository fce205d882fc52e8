import EbnfKit.Proofs.Forward
import EbnfKit.Proofs.Lookup

/-! # Coverage — a mark covers the tokens of what it marks

    A mark runs from the first token of a rule or a node to the last, also where the text has
    syntax errors.  So no mark is empty, each stands on whole characters, and they nest as the
    tree does:

      c a child of n                       implies   n.mark contains c.mark
      c in front of c',  siblings          implies   c.mark.stop ≤ c'.mark.start
      p and q two primaries of the text    implies   p.mark ≠ q.mark

    None of the spans put together on the way is backward, those of rules that were given up
    included. -/

namespace EbnfKit

/-- The span of tokens that the text has in a row: it starts where the first of them does and
    stops where the last does, is not empty, and can be cut out of the text. -/
structure Span.Covers (s : Text) (ts : List Token) (p : Span) : Prop where
  stretch : ts <:+: significant s
  start : ts.head?.map (·.span.start) = some p.start
  stop : ts.getLast?.map (·.span.stop) = some p.stop
  forward : p.start < p.stop
  bounds : s.isBoundary p.start = true ∧ s.isBoundary p.stop = true
  within : p.stop ≤ s.size

/-- The spans lie in `p`, one behind the other. -/
structure Span.Hosts (p : Span) (parts : List Span) : Prop where
  contains : ∀ q ∈ parts, p.contains q = true
  apart : parts.Pairwise fun q q' => q.stop ≤ q'.start

theorem Span.contains_of_le {p q : Span} (hstart : p.start ≤ q.start) (hstop : q.stop ≤ p.stop) :
    p.contains q = true := by
  rw [contains, Bool.and_eq_true, decide_eq_true_iff, decide_eq_true_iff]
  exact ⟨hstart, hstop⟩

/-- Whatever tokens a text has in a row, their span covers them. -/
theorem Span.covers_over {s : Text} {ts : List Token} (hts : ts <:+: significant s)
    (hne : ts ≠ []) : (Span.over ts).Covers s ts := by
  have hbounds : ∀ t ∈ ts, s.isBoundary t.span.start = true ∧ s.isBoundary t.span.stop = true :=
    fun t ht => (tiles_tokenize s).bounds t (List.mem_filter.mp (hts.subset ht)).1
  have hstart := Span.over_start hne
  have hstop := Span.over_stop hne
  have hlast := (hbounds _ (List.getLast_mem hne)).2
  obtain ⟨x, y, htext, hsize⟩ := Text.isBoundary_iff.mp hlast
  refine ⟨hts, ?_, ?_, Span.over_forward ((significant_scanned s).sublist hts.sublist) hne, ⟨?_, ?_⟩, ?_⟩
  · rw [hstart, List.head?_eq_some_head hne]
    rfl
  · rw [hstop, List.getLast?_eq_some_getLast hne]
    rfl
  · rw [hstart]
    exact (hbounds _ (List.head_mem hne)).1
  · rw [hstop]
    exact hlast
  · rw [hstop, hsize, htext, Text.size_append]
    exact Nat.le_add_right _ _

namespace Grammar

variable {s : Text}

/-- The mark of a node covers tokens that derive it, and hosts those of its children. -/
theorem node_covers {n : Node Span} (hn : n ∈ (parse s).nodes) :
    (∃ us, n.Derives .placed us ∧ n.mark.Covers s us) ∧ n.mark.Hosts (n.children.map Node.mark) := by
  constructor
  · obtain ⟨us, hus, hnode⟩ := node_derives hn
    have hmark : n.mark = Span.over us := hnode.marks
    rw [hmark]
    exact ⟨us, hnode, Span.covers_over hus hnode.ne_nil⟩
  · have hnests := nests_of_mem hn
    refine ⟨List.forall_mem_map.mpr fun c hc => ?_, List.pairwise_map.mpr hnests.apart⟩
    obtain ⟨hstart, hstop⟩ := hnests.within c hc
    exact Span.contains_of_le hstart hstop

/-- The mark of a rule covers tokens that derive it, and hosts those of its name and its body. -/
theorem rule_covers {r : Rule Span} (hr : r ∈ (parse s).rules) :
    (∃ us, Rule.Derives .placed us r ∧ r.mark.Covers s us) ∧
      (∃ t, t.kind = .identifier ∧ t.text = r.name ∧ r.nameMark.Covers s [t]) ∧
      r.mark.Hosts [r.nameMark, r.body.mark] := by
  obtain ⟨us, hus, hfits⟩ := (parse_amid s).stretch hr
  have hderives := hfits.derives
  have hscanned := (significant_scanned s).sublist hus.sublist
  have hmark := hderives.mark_eq
  refine ⟨⟨us, hderives, ?_⟩, ?_⟩
  · rw [hmark]
    exact Span.covers_over hus (Parser.rule_ne_nil hderives)
  · cases hderives with
    | @mk name equals us semicolon nm body m hname _ hbody _ hnm _ =>
        have hnm : nm = Span.over [name] := hnm
        obtain ⟨hne, hover⟩ := Parser.derives_mark.expressions body us hbody
        have hfront : [name] <:+: name :: equals :: us ++ [semicolon] :=
          (List.prefix_append [name] _).isInfix
        have hmiddle : us <:+: name :: equals :: us ++ [semicolon] :=
          List.infix_append [name, equals] us [semicolon]
        obtain ⟨hstart, hstop⟩ := Span.over_sublist hscanned hfront.sublist (List.cons_ne_nil _ _)
        obtain ⟨hstart', hstop'⟩ := Span.over_sublist hscanned hmiddle.sublist hne
        have hapart : Scanned ([name] ++ us) :=
          hscanned.left.sublist ((List.sublist_cons_self equals us).cons_cons name)
        rw [← hmark] at hstart hstop hstart' hstop'
        refine ⟨⟨name, hname, rfl, ?_⟩, List.forall_mem_cons.mpr ⟨?_, List.forall_mem_singleton.mpr ?_⟩, ?_⟩
        · rw [hnm]
          exact Span.covers_over (hfront.trans hus) (List.cons_ne_nil _ _)
        · rw [hnm]
          exact Span.contains_of_le hstart hstop
        · rw [hover]
          exact Span.contains_of_le hstart' hstop'
        · rw [hnm, hover]
          exact List.pairwise_pair.mpr (Span.over_stop_le_start hapart (List.cons_ne_nil _ _) hne)

/-- No two primaries have the same mark, wherever they stand. -/
theorem primaries_pairwise (s : Text) :
    ((parse s).nodes.filterMap Node.primary?).Pairwise fun p q => p.mark ≠ q.mark := by
  refine @pairwise_of_nodes s _ 3 _ _ fun n p hp => ?_
  cases n <;> cases hp
  exact ⟨rfl, rfl⟩

/-- **Marks nest as the tree does.**  In any text the mark of a rule or a node runs from the first
    of its tokens to the last, is not empty and stands on whole characters; it contains the marks
    of what is right below, one behind the other.  Rules stand one behind the other as well, no
    two primaries have the same mark, and no span put together on the way is backward. -/
theorem marks_nest (s : Text) :
    (∀ r ∈ (parse s).rules, (∃ us, Rule.Derives .placed us r ∧ r.mark.Covers s us) ∧
      (∃ t, t.kind = .identifier ∧ t.text = r.name ∧ r.nameMark.Covers s [t]) ∧
      r.mark.Hosts [r.nameMark, r.body.mark]) ∧
    (∀ n ∈ (parse s).nodes, (∃ us, n.Derives .placed us ∧ n.mark.Covers s us) ∧
      n.mark.Hosts (n.children.map Node.mark)) ∧
    ((parse s).rules.Pairwise fun r q => r.mark.stop ≤ q.mark.start) ∧
    (((parse s).nodes.filterMap Node.primary?).Pairwise fun p q => p.mark ≠ q.mark) ∧
    ofTokens? (tokenize s) = some (parse s) :=
  ⟨fun _ hr => rule_covers hr, fun _ hn => node_covers hn, rules_apart s, primaries_pairwise s,
    ofTokens?_eq_some (ascends_tokenize s)⟩

/-- A rule behind a broken one, with a name in two brackets and an exception of four bytes. -/
example : (parse "a = ( ; b = 2 * [ ( c ) ] - 'é' ;".toList).rules.map
    (fun r => (r.mark, r.body.nodes.filterMap fun n => n.primary?.map Primary.mark))
      = [(⟨8, 34⟩, [⟨16, 25⟩, ⟨18, 23⟩, ⟨20, 21⟩, ⟨28, 32⟩])] := by
  decide +kernel

end Grammar

end EbnfKit
