import EbnfKit.Proofs.Census
import EbnfKit.Proofs.Places

/-! # Steps — one fix of several

    Fixes in order do not meet, so they can be looked at one by one.  The first of them puts
    its lexemes where some tokens stand, and has no say in the others:

      ts = as ++ us ++ bs,  f over us   imply

        (f :: fixes) on ts  =  fixes on as  ++  f.lexemes  ++  fixes on bs
             fixes   on ts  =  fixes on as  ++     us      ++  fixes on bs

    Whatever each fix keeps of the tokens that it stands over, they keep together: here it is
    the set of names. -/

namespace EbnfKit

variable {f : Fix} {fixes : List Fix}

/-! ## One fix -/

/-- The fix is over these tokens, and over no others. -/
structure Fix.Over (f : Fix) (us ts : List Token) : Prop where
  stretch : us <:+: ts
  ne_nil : us ≠ []
  start : f.span.start = (Span.over us).start
  stop : (Span.over us).stop ≤ f.span.stop
  only : ∀ t ∈ ts, (Span.over us).stop ≤ t.span.start → f.span.stop ≤ t.span.start

/-- A fix that is over none of the tokens has no say in them. -/
theorem editTokens_not_holds {ts : List Token} (h : ∀ t ∈ ts, f.span.holds t.span.start = false) :
    editTokens (f :: fixes) ts = editTokens fixes ts := by
  refine List.flatMap_congr fun t ht => ?_
  rw [edited, edited, List.find?_cons_of_neg (by rw [h t ht]; exact Bool.false_ne_true)]

/-- **One fix at a time.** -/
theorem editTokens_cons (hordered : Ordered (f :: fixes)) {us ts : List Token} (hts : Scanned ts)
    (h : f.Over us ts) : ∃ as bs, ts = as ++ us ++ bs ∧
      editTokens (f :: fixes) ts = editTokens fixes as ++ f.lexemes ++ editTokens fixes bs ∧
      editTokens fixes ts = editTokens fixes as ++ us.map Token.lexeme ++ editTokens fixes bs := by
  obtain ⟨as, bs, rfl⟩ := h.stretch
  have hforward := Span.over_forward hts.left.right h.ne_nil
  have hunder : ∀ u ∈ us, f.span.holds u.span.start = true := by
    intro u hu
    obtain ⟨hstart, hstop⟩ := Span.over_bounds hts.left.right hu
    have hu' := hts.forward u (List.mem_append_left bs (List.mem_append_right as hu))
    exact Span.holds_iff.mpr ⟨h.start ▸ hstart, Nat.lt_of_lt_of_le hu' (Nat.le_trans hstop h.stop)⟩
  have has : ∀ a ∈ as, f.span.holds a.span.start = false := by
    intro a ha
    have hle := hts.left.stop_le_start ha (List.head_mem h.ne_nil)
    have ha' := hts.forward a (List.mem_append_left bs (List.mem_append_left us ha))
    rw [← Span.over_start h.ne_nil, ← h.start] at hle
    exact Span.not_holds_iff.mpr (Or.inl (Nat.lt_of_lt_of_le ha' hle))
  have hbs : ∀ b ∈ bs, f.span.holds b.span.start = false := by
    intro b hb
    have hle := hts.stop_le_start (List.mem_append_right as (List.getLast_mem h.ne_nil)) hb
    rw [← Span.over_stop h.ne_nil] at hle
    exact Span.not_holds_iff.mpr (Or.inr (h.only b (List.mem_append_right _ hb) hle))
  -- where the first fix is, no other one is
  have hothers : ∀ g ∈ fixes, ∀ u ∈ us, g.span.holds u.span.start = false := by
    intro g hg u hu
    have hstop := (List.pairwise_cons.mp hordered).1 g hg
    exact Span.not_holds_iff.mpr (Or.inl
      (Nat.lt_of_lt_of_le (Span.holds_iff.mp (hunder u hu)).2 hstop))
  refine ⟨as, bs, rfl, ?_, ?_⟩
  · rw [editTokens_append, editTokens_append, editTokens_not_holds has, editTokens_not_holds hbs,
      editTokens_replaced hordered List.mem_cons_self hts.left.right h.ne_nil h.start h.stop]
  · rw [editTokens_append, editTokens_append, editTokens_untouched hothers]

/-- A fix of a node is over the tokens that it stands over. -/
theorem Fix.StandsOver.over {us ts : List Token} (h : f.StandsOver us) (hus : us <:+: ts)
    (hts : Legible ts) : f.Over us ts := by
  obtain ⟨hne, hspan⟩ := h.span (hts.sublist hus.sublist)
  exact ⟨hus, hne, by rw [hspan], by rw [hspan], fun t _ ht => by rwa [hspan]⟩

/-! ## Names -/

/-- The names among the lexemes. -/
def namesOf (ls : List Lexeme) : List Text :=
  ls.filterMap Lexeme.name?

theorem namesOf_append (ls ms : List Lexeme) : namesOf (ls ++ ms) = namesOf ls ++ namesOf ms :=
  List.filterMap_append

/-- Names show in the gists. -/
theorem namesOf_of_gists {ls ms : List Lexeme} (h : ls.map Lexeme.gist = ms.map Lexeme.gist) :
    namesOf ls = namesOf ms := by
  have hgists : ∀ ls : List Lexeme, namesOf ls = (ls.map Lexeme.gist).filterMap Prod.snd := by
    intro ls
    rw [List.filterMap_map]
    rfl
  rw [hgists, hgists, h]

theorem Reading.gists_placed (ts : List Token) :
    Reading.placed.gists ts = (ts.map Token.lexeme).map Lexeme.gist := by
  rw [List.map_map]
  rfl

/-- Each use is the name that a lexeme is. -/
theorem census_names {α : Type} : Census (fun l => l.name?.toList)
    (fun n : Node α => (n.use?.map Prod.fst).toList) where
  sign := List.all_iff_forall_prop.mp rfl
  number _ := rfl
  expression _ := rfl
  term _ := rfl
  factor _ := rfl
  reference _ _ := rfl
  literal _ _ _ := rfl
  bracketed _ b _ := by cases b <;> rfl

/-- The names among the lexemes of a tree are those that it uses. -/
theorem Expression.names_lexemes {α : Type} (e : Expression α) :
    namesOf e.lexemes = e.uses.map Prod.fst := by
  rw [namesOf, Expression.uses, List.map_filterMap, List.filterMap_eq_flatMap_toList,
    List.filterMap_eq_flatMap_toList]
  exact (lexemes_census census_names).expressions e

/-- The names among the pieces are those that the tree uses. -/
theorem Expression.Derives.names {τ α : Type} {d : Reading τ α} {ts : List τ} {e : Expression α}
    (h : Expression.Derives d ts e) : namesOf (ts.map d.lexeme) = e.uses.map Prod.fst := by
  have hgists : (ts.map d.lexeme).map Lexeme.gist = e.lexemes.map Lexeme.gist := by
    rw [List.map_map]
    exact derives_gists.expressions e ts h
  rw [namesOf_of_gists hgists, e.names_lexemes]

/-- Marks do not change which names are used. -/
theorem Expression.uses_map {α β : Type} (f : α → β) (e : Expression α) :
    (e.map f).uses.map Prod.fst = e.uses.map Prod.fst := by
  have hlexemes : (e.map f).lexemes = e.lexemes := (lexemes_map f).expressions e
  rw [← names_lexemes, ← names_lexemes, hlexemes]

/-! ## What a fix stands over -/

section StandsOver

variable {us : List Token}

/-- A counted run writes its factor once, and stands over it and all the others. -/
theorem Fix.lexemes_countRun {b : Factor Span × List (Factor Span)} {r : Run} (hus : Legible us)
    (hr : Run.ofBlock? b = some r)
    (hb : Separated (fun s => Reading.placed.kind s = .comma) (Factor.Derives .placed) us
      (Run.members b)) : (countRun r).lexemes = r.once.lexemes ∧
      (us.map Token.lexeme).map Lexeme.gist = (r.factor.lexemes ++
        b.2.flatMap fun g => .sign ',' :: g.lexemes).map Lexeme.gist := by
  obtain ⟨-, -, hwhole⟩ := Run.rewrites hus hb hr
  obtain ⟨-, hfactor, -, -⟩ := Run.ofBlock?_eq_some_iff.mp hr
  constructor
  · exact (@Fix.plain_of_render (countRun r) r.once (Run.render_once r).symm
      fun l hl => (hwhole l hl).1).1
  · rw [← Reading.gists_placed, hfactor]
    exact hb.gists rfl (by decide) (fun g _ ts h => derives_gists.factors g ts h) b.1 b.2 rfl

/-- Dropped parentheses stood around the lexemes that are left. -/
theorem Fix.lexemes_dropParentheses {plain : Bool} {p : Primary Span} {q : RedundantGroup}
    (hus : Legible us) (hq : RedundantGroup.ofPrimary? plain p = some q)
    (hp : Primary.Derives .placed us p) : (dropParentheses q).lexemes = q.inner.lexemes ∧
      (us.map Token.lexeme).map Lexeme.gist
        = (.sign '(' :: (q.inner.lexemes ++ [.sign ')'])).map Lexeme.gist := by
  obtain ⟨-, m, m', rfl⟩ := RedundantGroup.of_ofPrimary? hq
  have hgists := derives_gists.primaries _ us hp
  rw [Reading.gists_placed, Primary.lexemes, Expression.lexemes, Term.lexemesOthers, Term.lexemes,
    Factor.lexemesOthers, List.append_nil, List.append_nil] at hgists
  refine ⟨?_, hgists⟩
  obtain ⟨o, vs, c, rfl, hinner, -⟩ := hp.inside
  exact (@Fix.plain_of_render (dropParentheses q) q.inner rfl
    fun l hl => (hus.left.right.factor hinner.single l hl).1).1

/-- Factors that are printed alike have the same lexemes. -/
theorem Run.lexemes_members {b : Factor Span × List (Factor Span)} (hus : Legible us)
    (hb : Separated (fun s => Reading.placed.kind s = .comma) (Factor.Derives .placed) us (members b))
    (halike : ∀ g ∈ members b, g.render = b.1.render) : ∀ g ∈ members b, g.lexemes = b.1.lexemes := by
  have hwhole : ∀ g ∈ members b, Wholes g.lexemes := by
    intro g hg
    obtain ⟨vs, hvs, hderives⟩ := hb.sublist hg
    exact fun l hl => ((hus.sublist hvs).factor hderives l hl).1
  intro g hg
  rw [← lexemes_factor (hwhole g hg), ← lexemes_factor (hwhole b.1 List.mem_cons_self), halike g hg]

/-- A fix of a node writes the names that it stands over. -/
theorem Fix.StandsOver.names (h : f.StandsOver us) (hus : Legible us) (n : Text) :
    n ∈ namesOf f.lexemes ↔ n ∈ namesOf (us.map Token.lexeme) := by
  cases h with
  | @count b r hr halike hb =>
      obtain ⟨hwritten, hgists⟩ := Fix.lexemes_countRun hus hr hb
      obtain ⟨-, hfactor, -, -⟩ := Run.ofBlock?_eq_some_iff.mp hr
      have hsame := Run.lexemes_members hus hb halike
      have honce : namesOf r.once.lexemes = namesOf r.factor.lexemes := by
        rw [Run.lexemes_once, namesOf_append]
        split
        · rfl
        · show namesOf (r.factor.lexemes ++ [.sign ')']) = _
          rw [namesOf_append, show namesOf [Lexeme.sign ')'] = [] from rfl, List.append_nil]
      rw [hwritten, honce, namesOf_of_gists hgists, namesOf_append, List.mem_append, iff_self_or]
      intro hn
      obtain ⟨l, hl, hname⟩ := List.mem_filterMap.mp hn
      obtain ⟨g, hg, hl⟩ := List.mem_flatMap.mp hl
      rcases List.mem_cons.mp hl with rfl | hl
      · cases hname
      · rw [hsame g (List.mem_cons_of_mem _ hg), ← hfactor] at hl
        exact List.mem_filterMap.mpr ⟨l, hl, hname⟩
  | @drop _ p q hq hp =>
      obtain ⟨hwritten, hgists⟩ := Fix.lexemes_dropParentheses hus hq hp
      rw [hwritten, namesOf_of_gists hgists]
      show _ ↔ n ∈ namesOf (q.inner.lexemes ++ [.sign ')'])
      rw [namesOf_append, show namesOf [Lexeme.sign ')'] = [] from rfl, List.append_nil]

end StandsOver

/-- **Fixes of nodes keep the names**, whichever of them there are. -/
theorem names_editTokens (hordered : Ordered fixes) {ts : List Token} (hts : Legible ts)
    (h : ∀ f ∈ fixes, (∃ us, us <:+: ts ∧ f.StandsOver us) ∨
      ∀ t ∈ ts, f.span.holds t.span.start = false) (n : Text) :
    n ∈ namesOf (editTokens fixes ts) ↔ n ∈ namesOf (ts.map Token.lexeme) := by
  induction fixes with
  | nil => rw [editTokens_untouched (List.forall_mem_nil _)]
  | cons f fixes ih =>
      obtain ⟨hf, hfixes⟩ := List.forall_mem_cons.mp h
      rw [← ih (List.pairwise_cons.mp hordered).2 hfixes]
      rcases hf with ⟨us, hus, hstands⟩ | hnone
      · obtain ⟨as, bs, -, hwith, hwithout⟩ :=
          editTokens_cons hordered hts.scanned (hstands.over hus hts)
        rw [hwith, hwithout]
        simp only [namesOf_append, List.mem_append, hstands.names (hts.sublist hus.sublist) n]
      · rw [editTokens_not_holds hnone]

end EbnfKit
