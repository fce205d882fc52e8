import EbnfKit.Proofs.Offering
import EbnfKit.Proofs.Steps
import EbnfKit.Proofs.Surgery

/-! # Rounds — what a round of fixes does to a grammar

    A round removes the rules that are not needed and rewrites the bodies of the others.
    The text that comes out writes rules with the same names and the same meaning:

      s clean, fixes offered for s   imply   the edited s writes rules rs',
                                             each rs'[i] means what the i-th rule does
                                             that is needed

    If the edited text has no syntax errors, these are its rules.  It has none, unless a run
    was counted too deep. -/

namespace EbnfKit

variable {fixes : List Fix}

/-! ## Rules -/

/-- The fixes turn the rule into the other one. -/
structure Rule.Revised (fixes : List Fix) (r : Rule Span) (r' : Rule Unit) : Prop where
  name : r'.name = r.name
  body : r.body.Revised fixes 0 r'.body
  uses : ∀ n, n ∈ r'.body.uses.map Prod.fst ↔ n ∈ r.body.uses.map Prod.fst

/-- Rules that fitted in `n` brackets still do, unless the fixes count a run too deep in
    them. -/
theorem Rule.revised_fits_iff {n : Nat} {rs : List (Rule Span)} {rs' : List (Rule Unit)}
    (hrs : ∀ r ∈ rs, r.body.nesting ≤ n) (h : List.Forall₂ (Rule.Revised fixes) rs rs') :
    (∀ r' ∈ rs', r'.body.nesting ≤ n) ↔
      ∀ r ∈ rs, ∀ kr ∈ r.body.runsAt 0, ¬TooDeep fixes n kr := by
  induction h with
  | nil => simp
  | @cons r r' rs rs' hr _ ih =>
      obtain ⟨hfirst, hlater⟩ := List.forall_mem_cons.mp hrs
      have hfits := hr.body.fits_iff n hfirst
      rw [Nat.zero_add] at hfits
      rw [List.forall_mem_cons, List.forall_mem_cons, hfits, ih hlater]

/-- A rule is edited in its body. -/
theorem Rule.edited (hordered : Ordered fixes) {r : Rule Span} {ts : List Token}
    (hts : Legible ts) (h : Rule.Derives .placed ts r) (hwithin : Within fixes r.body.fixes ts) :
    ∃ r', Rule.Derives .bare (editTokens fixes ts) r' ∧ r.Revised fixes r' := by
  cases h with
  | @mk x e us c _ body _ hx he hbody hc _ _ =>
      have hlegible : Legible us := @Legible.right [x, e] us hts.left
      have hrewrite : ∀ f ∈ body.fixes, f.Rewrites us :=
        fixes_rewrite.expressions body us hlegible hbody
      obtain ⟨hinner, hedit⟩ :=
        @Within.inside _ body.fixes [x, e] us [c] hwithin hts.scanned hrewrite
      obtain ⟨body', hbody', hrevised⟩ :=
        (revisable hordered).expressions body 0 us hlegible hbody hinner
      have huses : ∀ n, n ∈ body'.uses.map Prod.fst ↔ n ∈ body.uses.map Prod.fst := by
        have hstand := fixes_stand (nodes_stand.expressions body us hbody)
        intro n
        rw [← hbody'.names, ← hbody.names]
        exact (congrArg (fun ls => n ∈ namesOf ls) (List.map_id _)).to_iff.trans
          (names_editTokens hordered hlegible (fun f hf => (hinner f hf).imp_left (hstand f)) n)
      refine ⟨⟨x.text, (), body', ()⟩, ?_, rfl, hrevised, huses⟩
      show Rule.Derives .bare (editTokens fixes (([x, e] ++ us) ++ [c])) _
      rw [hedit]
      exact .mk hx he hbody' hc trivial trivial

/-- How a removal stands in a text: it starts with the rule, it takes all of it, and it is
    over no other token. -/
structure Fix.Removes (s : Text) (ts : List Token) (r : Rule Span) : Prop where
  start : (removeRule s r).span.start = r.mark.start
  stop : r.mark.stop ≤ (removeRule s r).span.stop
  only : ∀ t ∈ ts, r.mark.stop ≤ t.span.start → (removeRule s r).span.stop ≤ t.span.start

/-- A removal writes nothing. -/
theorem Fix.lexemes_removeRule (s : Text) (r : Rule Span) : (removeRule s r).lexemes = [] := by
  show (EbnfKit.lexemes []).filter _ = []
  rw [lexemes_nil]
  rfl

/-- The fix removes the rule, or rewrites a part of it. -/
def Fix.Concerns (s : Text) (r : Rule Span) (f : Fix) : Prop :=
  f = Fix.removeRule s r ∨ f ∈ r.body.fixes

/-- A fix that concerns a rule is over no token behind the rule. -/
theorem Fix.Concerns.not_holds_right {s : Text} {us vs : List Token} {r : Rule Span} {f : Fix}
    (hf : f.Concerns s r) (hr : Rule.Derives .placed us r) (hts : Legible (us ++ vs))
    (hremove : Fix.Removes s (us ++ vs) r) : ∀ v ∈ vs, f.span.holds v.span.start = false := by
  rcases hf with rfl | hf
  · intro v hv
    have hne := Parser.rule_ne_nil hr
    refine Span.not_holds_iff.mpr (Or.inr (hremove.only v (List.mem_append_right us hv) ?_))
    rw [hr.mark_eq, Span.over_stop hne]
    exact hts.scanned.stop_le_start (List.getLast_mem hne) hv
  · exact (hr.rewrites hts.left hf).not_holds_right hts.scanned

/-- A fix that concerns a later rule is over no token before it. -/
theorem Fix.Concerns.not_holds_left {s : Text} {us vs xs : List Token} {r : Rule Span} {f : Fix}
    (hf : f.Concerns s r) (hr : Rule.Derives .placed xs r) (hxs : xs.Sublist vs)
    (hts : Legible (us ++ vs)) (hremove : Fix.Removes s (us ++ vs) r) :
    ∀ u ∈ us, f.span.holds u.span.start = false := by
  rcases hf with rfl | hf
  · intro u hu
    have hne := Parser.rule_ne_nil hr
    refine Span.not_holds_iff.mpr (Or.inl ?_)
    have hle := hts.scanned.stop_le_start hu (hxs.subset (List.head_mem hne))
    have hforward := hts.scanned.forward u (List.mem_append_left vs hu)
    rw [hremove.start, hr.mark_eq, Span.over_start hne]
    omega
  · exact ((hr.rewrites (hts.right.sublist hxs) hf).mono hxs).not_holds_left hts.scanned

/-- **Rules are edited one by one**, and those that are removed leave nothing. -/
theorem Rule.DerivesAll.edited (hordered : Ordered fixes) (s : Text) {ts : List Token}
    {rs : List (Rule Span)} (h : Rule.DerivesAll .placed ts rs) :
    Legible ts → (∀ r ∈ rs, Fix.Removes s ts r) →
      (∀ f ∈ fixes, (∃ r ∈ rs, f.Concerns s r) ∨ ∀ t ∈ ts, f.span.holds t.span.start = false) →
      ∃ rs', Rule.DerivesAll .bare (editTokens fixes ts) rs' ∧
        List.Forall₂ (Rule.Revised fixes)
          (rs.filter fun r => !fixes.contains (Fix.removeRule s r)) rs' := by
  induction h with
  | nil => exact fun _ _ _ => ⟨[], .nil, .nil⟩
  | @cons us r vs rs hr hrs ih =>
      intro hts hremoves hscope
      obtain ⟨hremove, hlater⟩ := List.forall_mem_cons.mp hremoves
      have hbehind : ∀ f : Fix, f.Concerns s r → ∀ v ∈ vs, f.span.holds v.span.start = false :=
        fun f hf => hf.not_holds_right hr hts hremove
      have hbefore : ∀ q ∈ rs, ∀ f : Fix, f.Concerns s q →
          ∀ u ∈ us, f.span.holds u.span.start = false := by
        intro q hq f hf
        obtain ⟨xs, hxs, hq'⟩ := hrs.sublist hq
        exact hf.not_holds_left hq' hxs hts (hlater q hq)
      obtain ⟨rs', hrs', hrevised⟩ := ih hts.right
        (fun q hq => ⟨(hlater q hq).start, (hlater q hq).stop,
          fun t ht => (hlater q hq).only t (List.mem_append_right us ht)⟩) (by
        intro f hf
        rcases hscope f hf with ⟨q, hq, hconcerns⟩ | hnone
        · rcases List.mem_cons.mp hq with rfl | hq
          · exact Or.inr (hbehind f hconcerns)
          · exact Or.inl ⟨q, hq, hconcerns⟩
        · exact Or.inr fun v hv => hnone v (List.mem_append_right us hv))
      by_cases hremoved : Fix.removeRule s r ∈ fixes
      · refine ⟨rs', ?_, ?_⟩
        · rw [editTokens_append, editTokens_replaced hordered hremoved hts.left.scanned
            (Parser.rule_ne_nil hr) (hremove.start.trans (congrArg Span.start hr.mark_eq))
            (hr.mark_eq ▸ hremove.stop), Fix.lexemes_removeRule]
          exact hrs'
        · rw [List.filter_cons_of_neg (by simpa using hremoved)]
          exact hrevised
      · have hwithin : Within fixes r.body.fixes us := by
          intro f hf
          rcases hscope f hf with ⟨q, hq, hconcerns⟩ | hnone
          · rcases List.mem_cons.mp hq with rfl | hq
            · rcases hconcerns with rfl | hbody
              · exact absurd hf hremoved
              · exact Or.inl hbody
            · exact Or.inr (hbefore q hq f hconcerns)
          · exact Or.inr fun u hu => hnone u (List.mem_append_left vs hu)
        obtain ⟨r', hr', hr'revised⟩ := Rule.edited hordered hts.left hr hwithin
        refine ⟨r' :: rs', ?_, ?_⟩
        · rw [editTokens_append]
          exact .cons hr' hrs'
        · rw [List.filter_cons_of_pos (by simpa using hremoved)]
          exact .cons hr'revised hrevised

/-! ## Texts -/

/-- There are no more lexemes than bytes. -/
theorem length_le_size {ls : List Lexeme} (h : ∀ l ∈ ls, l.Lexical) :
    ls.length ≤ Text.size (spelled ls) := by
  induction ls with
  | nil => exact Nat.le_refl _
  | cons l ls ih =>
      obtain ⟨hl, hls⟩ := List.forall_mem_cons.mp h
      have hpos := Text.size_pos hl.ne_nil
      have hle := ih hls
      rw [spelled_cons, Text.size_append, List.length_cons]
      omega

theorem length_significant_le (s : Text) : (significant s).length ≤ s.size := by
  have hlen : (tokensAt 0 (lexemes s)).length = (lexemes s).length := by
    rw [← List.length_map Token.lexeme, map_lexeme_tokensAt]
  have hsize := length_le_size (lexemes_lexical s)
  rw [spelled, lexemes_texts] at hsize
  rw [significant_eq]
  exact (List.length_filter_le _ _).trans (hlen ▸ hsize)

/-- What holds of the tokens and of what the fixes write holds of the edited tokens. -/
theorem editTokens_forall {q : Lexeme → Prop} {ts : List Token} (hts : ∀ t ∈ ts, q t.lexeme)
    (hfixes : ∀ f ∈ fixes, ∀ l ∈ f.lexemes, q l) : ∀ l ∈ editTokens fixes ts, q l := by
  intro l hl
  obtain ⟨t, ht, hmem⟩ := List.mem_flatMap.mp hl
  rw [edited] at hmem
  split at hmem
  · rw [List.mem_singleton.mp hmem]
    exact hts t ht
  · rename_i f hfind
    split at hmem
    · exact hfixes f (List.mem_of_find?_eq_some hfind) l hmem
    · cases hmem

namespace Grammar

variable {s : Text} {ps : List Piece}

/-- The runs of all rules, each with the number of brackets around it. -/
def runsWithDepth (g : Grammar) : List (Nat × Run) :=
  g.rules.flatMap fun r => r.body.runsAt 0

/-- A fix within the body of a rule rewrites its tokens. -/
theorem rewrites_of_body_fix (h : (parse s).diagnostics = []) {r : Rule Span}
    (hr : r ∈ (parse s).rules) {f : Fix} (hf : f ∈ r.body.fixes) : f.Rewrites (significant s) := by
  obtain ⟨ts, hts, hderives⟩ := (derives_of_clean h).sublist hr
  exact (hderives.rewrites ((legible_of_clean h).sublist hts) hf).mono hts

/-- A fix that serves a rule can be applied, and what it writes is whole. -/
theorem Serves.applies (h : (parse s).diagnostics = []) (hs : Layout s ps) {f : Fix}
    (hf : (parse s).Serves f) :
    f.Covers 0 ps ∧ (∃ t ∈ significant s, t.span.start = f.span.start) ∧
      Plain f.replacement f.lexemes ∧ ∀ l ∈ f.lexemes, l.Whole ∧ (s.size < 2 ^ 32 → l.Fits) := by
  have hforward := hf.forward h hs
  have htoken : ∀ t ∈ significant s, t ∈ Piece.tokensAt 0 ps := by
    intro t ht
    rw [hs.tokens]
    exact ht
  rcases hf with ⟨r, hr, -, rfl⟩ | ⟨r, hr, hf⟩
  · rw [source_parse] at hforward ⊢
    obtain ⟨hstart, -, -, hboundary, -⟩ := span_of_removal h hs hr
    obtain ⟨ts, hts, hderives⟩ := (derives_of_clean h).sublist hr
    have hne := Parser.rule_ne_nil hderives
    have hhead := hts.subset (List.head_mem hne)
    rw [hderives.mark_eq, Span.over_start hne] at hstart
    refine ⟨⟨?_, hboundary, hforward⟩, ⟨_, hhead, hstart.symm⟩, ?_, ?_⟩
    · rw [hstart]
      exact (Piece.isBoundary_token (htoken _ hhead)).1
    · rw [Fix.lexemes_removeRule]
      exact Plain.nil
    · rw [Fix.lexemes_removeRule]
      exact List.forall_mem_nil _
  · obtain ⟨us, g, hne, hus, hspan, hreplacement, hlexemes⟩ := rewrites_of_body_fix h hr hf
    have hhead := hus.subset (List.head_mem hne)
    have hlast := hus.subset (List.getLast_mem hne)
    have hstart : f.span.start = (us.head hne).span.start := by rw [hspan, Span.over_start hne]
    obtain ⟨hwritten, hplain⟩ := Fix.plain_of_render hreplacement fun l hl => (hlexemes l hl).1
    refine ⟨⟨?_, ?_, hforward⟩, ⟨_, hhead, hstart.symm⟩, hplain, ?_⟩
    · rw [hstart]
      exact (Piece.isBoundary_token (htoken _ hhead)).1
    · rw [hspan, Span.over_stop hne]
      exact (Piece.isBoundary_token (htoken _ hlast)).2
    · rw [hwritten]
      intro l hl
      obtain ⟨hwhole, hfits⟩ := hlexemes l hl
      exact ⟨hwhole, fun hsize => hfits (Nat.lt_of_le_of_lt (length_significant_le s) hsize)⟩

/-- Where a rule is removed, nothing in it is rewritten. -/
theorem not_mem_of_removed (h : (parse s).diagnostics = []) (hs : Layout s ps)
    (hordered : Ordered fixes) {r : Rule Span} (hr : r ∈ (parse s).rules)
    (hremoved : Fix.removeRule s r ∈ fixes) {f : Fix} (hf : f ∈ r.body.fixes) : f ∉ fixes := by
  intro hmem
  obtain ⟨hstart, -, hstop, -⟩ := span_of_removal h hs hr
  obtain ⟨hafter, hforward, hwithin⟩ := bounds_of_body_fix h hr hf
  have hsame := @Ordered.eq_of_holds _ hordered _ _ hremoved hmem f.span.start
    (Span.holds_iff.mpr ⟨by omega, by omega⟩) (Span.holds_iff.mpr ⟨by omega, by omega⟩)
  rw [← hsame] at hafter
  omega

/-- The rules that are removed are those that are not needed. -/
theorem removal_mem_iff (h : (parse s).diagnostics = []) (hs : Layout s ps)
    (hserves : ∀ f ∈ fixes, (parse s).Serves f)
    (hremoved : ∀ r ∈ (parse s).rules, ¬(parse s).Reaches r.name → Fix.removeRule s r ∈ fixes)
    {r : Rule Span} (hr : r ∈ (parse s).rules) :
    Fix.removeRule s r ∈ fixes ↔ ¬(parse s).Reaches r.name := by
  constructor
  · intro hmem
    rcases hserves _ hmem with ⟨q, hq, hunneeded, heq⟩ | ⟨q, hq, hfix⟩
    · rw [source_parse] at heq
      have hstart := congrArg (fun f : Fix => f.span.start) heq
      simp only [(span_of_removal h hs hr).1, (span_of_removal h hs hq).1] at hstart
      rw [eq_of_start h hr hq hstart]
      exact hunneeded
    · -- no rule lies within the body of another one
      obtain ⟨hstart, hforward, hstop, -⟩ := span_of_removal h hs hr
      obtain ⟨hbody, -, hend⟩ := bounds_of_body_fix h hq hfix
      rcases pairwise_cases ((derives_of_clean h).apart (significant_scanned s)) hr hq with
        rfl | hbefore | hbehind
      · omega
      · omega
      · omega
  · exact hremoved r hr

/-- Fixes turn a text into another one: they come in order, each serves a rule, and all rules
    that are not needed are removed.  The text writes the edited tokens, which derive the
    others, revised. -/
structure Round (s : Text) (fixes : List Fix) (s' : Text) : Prop where
  ordered : Ordered fixes
  serves : ∀ f ∈ fixes, (parse s).Serves f
  removes : ∀ r ∈ (parse s).rules, ¬(parse s).Reaches r.name → Fix.removeRule s r ∈ fixes
  writes : Writes s' (editTokens fixes (significant s))
  whole : ∀ l ∈ editTokens fixes (significant s), l.Whole ∧ (s.size < 2 ^ 32 → l.Fits)
  revised : ∃ rs', Rule.DerivesAll .bare (editTokens fixes (significant s)) rs' ∧
    List.Forall₂ (Rule.Revised fixes) ((parse s).rules.filter fun r => (parse s).Reaches r.name) rs'

/-- **What a round comes to**: the fixes for what the checks find can be applied. -/
theorem exists_round (h : (parse s).diagnostics = []) :
    ∃ fixes s', Fix.offerAll (parse s) (parse s).analyze = .ok fixes ∧
      Fix.apply s fixes = .ok s' ∧ Round s fixes s' := by
  obtain ⟨ps, hs⟩ := (finished_of_clean h).layout
  obtain ⟨fixes, hoffer, hordered, hserves, hremoved⟩ := offerAll_spec h hs
  obtain ⟨s', happly, hwrites⟩ := Fix.apply_writes hs hordered
    (fun f hf => ((hserves f hf).applies h hs).1) (fun f hf => ((hserves f hf).applies h hs).2.1)
    (fun f hf => ((hserves f hf).applies h hs).2.2.1.writes)
  have hlegible := legible_of_clean h
  have hlexemes : ∀ l ∈ editTokens fixes (significant s), l.Whole ∧ (s.size < 2 ^ 32 → l.Fits) :=
    editTokens_forall (fun t ht => ⟨(hlegible.whole t ht).1, fun _ => (hlegible.whole t ht).2⟩)
      fun f hf => ((hserves f hf).applies h hs).2.2.2
  obtain ⟨rs', hrs', hrevised⟩ := (derives_of_clean h).edited hordered s hlegible
    (fun r hr => ⟨(span_of_removal h hs hr).1, (span_of_removal h hs hr).2.2.1,
      (span_of_removal h hs hr).2.2.2.2⟩) (by
    intro f hf
    rcases hserves f hf with ⟨r, hr, -, rfl⟩ | ⟨r, hr, hfr⟩
    · exact Or.inl ⟨r, hr, Or.inl (by rw [source_parse])⟩
    · exact Or.inl ⟨r, hr, Or.inr hfr⟩)
  have hkept : (parse s).rules.filter (fun r => !fixes.contains (Fix.removeRule s r))
      = (parse s).rules.filter fun r => (parse s).Reaches r.name := by
    refine List.filter_congr fun r hr => ?_
    have hiff := removal_mem_iff h hs hserves hremoved hr
    by_cases hreaches : (parse s).Reaches r.name
    · simp [hreaches, hiff]
    · simp [hreaches, hiff]
  rw [hkept] at hrevised
  exact ⟨fixes, s', hoffer, happly, hordered, hserves, hremoved, hwrites, hlexemes, rs', hrs',
    hrevised⟩

/-- The edited tokens are those of the text that comes out. -/
theorem Round.significant {s' : Text} (h : Round s fixes s') :
    (significant s').map Token.lexeme = editTokens fixes (significant s) := by
  obtain ⟨rs', hderives, -⟩ := h.revised
  exact h.writes.significant (hderives.loose fun l hl => (h.whole l hl).1)

/-- Where the text that comes out has no syntax errors, its rules are those that are needed,
    revised. -/
theorem Round.rules {s' : Text} (h : Round s fixes s') (hclean : (parse s').diagnostics = []) :
    List.Forall₂ (fun r r' => Rule.Revised fixes r r'.shape)
      ((parse s).rules.filter fun r => (parse s).Reaches r.name) (parse s').rules := by
  obtain ⟨rs', hderives, hrevised⟩ := h.revised
  have hshapes := (parse_of_writes h.writes (fun l hl => (h.whole l hl).1) hderives).2 hclean
  rwa [← hshapes, List.forall₂_map_right_iff] at hrevised

/-- The text that comes out writes the rules that are needed, each revised by the fixes, and
    no run of another rule is counted. -/
theorem round_writes (h : (parse s).diagnostics = []) :
    ∃ fixes s', Fix.offerAll (parse s) (parse s).analyze = .ok fixes ∧
      Fix.apply s fixes = .ok s' ∧
      ∃ ls rs', Writes s' ls ∧ Wholes ls ∧ (s.size < 2 ^ 32 → ∀ l ∈ ls, l.Fits) ∧
        Rule.DerivesAll .bare ls rs' ∧
        List.Forall₂ (Rule.Revised fixes)
          ((parse s).rules.filter fun r => (parse s).Reaches r.name) rs' ∧
        ∀ r ∈ (parse s).rules, ¬(parse s).Reaches r.name →
          ∀ kr ∈ r.body.runsAt 0, Fix.countRun kr.2 ∉ fixes := by
  obtain ⟨ps, hs⟩ := (finished_of_clean h).layout
  obtain ⟨fixes, s', hoffer, happly, hround⟩ := exists_round h
  obtain ⟨rs', hderives, hrevised⟩ := hround.revised
  refine ⟨fixes, s', hoffer, happly, _, rs', hround.writes, fun l hl => (hround.whole l hl).1,
    fun hsize l hl => (hround.whole l hl).2 hsize, hderives, hrevised, ?_⟩
  intro r hr hunneeded kr hkr
  exact not_mem_of_removed h hs hround.ordered hr (hround.removes r hr hunneeded)
    (countRun_mem_fixes.expressions r.body 0 kr hkr)

/-- **A round keeps the meaning**: if the text that comes out has no syntax errors, its rules
    are those that are needed, in order and under the same names, and each body denotes the
    same language as before, whatever the names stand for. -/
theorem round_keeps_meaning (s : Text) (h : (parse s).diagnostics = []) :
    ∃ fixes s', Fix.offerAll (parse s) (parse s).analyze = .ok fixes ∧
      Fix.apply s fixes = .ok s' ∧
      ((parse s').diagnostics = [] →
        List.Forall₂ (fun r r' => r'.name = r.name ∧
            ∀ i : Interpretation, r'.body.denote i = r.body.denote i)
          ((parse s).rules.filter fun r => (parse s).Reaches r.name) (parse s').rules) := by
  obtain ⟨fixes, s', hoffer, happly, ls, rs', hwrites, hwhole, -, hderives, hrevised, -⟩ :=
    round_writes h
  refine ⟨fixes, s', hoffer, happly, fun hclean => ?_⟩
  have hshapes := (parse_of_writes hwrites hwhole hderives).2 hclean
  rw [← hshapes, List.forall₂_map_right_iff] at hrevised
  refine hrevised.imp fun r r' hr => ⟨hr.name, fun i => ?_⟩
  have hsame : r'.body.shape.denote i = r.body.denote i := hr.body.same i
  rw [denote_shape.expressions] at hsame
  exact hsame

/-- A round that takes groups away, counts a run and removes a rule keeps what is needed. -/
theorem round_keeps_two_rules :
    (parse "a = ( b ) , 'x' , 'x' ; b = { ( 2 * b ) } ; c = a ;".toList).diagnostics = [] ∧
      List.Forall₂ (fun r r' => r'.name = r.name ∧
          ∀ i : Interpretation, r'.body.denote i = r.body.denote i)
        ((parse "a = ( b ) , 'x' , 'x' ; b = { ( 2 * b ) } ; c = a ;".toList).rules.filter fun r =>
          (parse "a = ( b ) , 'x' , 'x' ; b = { ( 2 * b ) } ; c = a ;".toList).Reaches r.name)
        (parse "a = b , 2 * 'x' ; b = { 2 * b } ; ".toList).rules := by
  have hclean : (parse "a = ( b ) , 'x' , 'x' ; b = { ( 2 * b ) } ; c = a ;".toList).diagnostics
      = [] := by
    decide +kernel
  obtain ⟨fixes, s', hoffer, happly, hkeeps⟩ := round_keeps_meaning _ hclean
  have hround : ((Fix.offerAll (parse "a = ( b ) , 'x' , 'x' ; b = { ( 2 * b ) } ; c = a ;".toList)
      (parse "a = ( b ) , 'x' , 'x' ; b = { ( 2 * b ) } ; c = a ;".toList).analyze).toOption.bind
        fun fixes => (Fix.apply "a = ( b ) , 'x' , 'x' ; b = { ( 2 * b ) } ; c = a ;".toList
          fixes).toOption) = some "a = b , 2 * 'x' ; b = { 2 * b } ; ".toList := by
    decide +kernel
  rw [hoffer] at hround
  have hs' : s' = "a = b , 2 * 'x' ; b = { 2 * b } ; ".toList := by
    have hsome : (Fix.apply "a = ( b ) , 'x' , 'x' ; b = { ( 2 * b ) } ; c = a ;".toList
        fixes).toOption = some "a = b , 2 * 'x' ; b = { 2 * b } ; ".toList := hround
    rw [happly] at hsome
    exact Option.some.inj hsome
  subst hs'
  exact ⟨hclean, hkeeps (by decide +kernel)⟩

/-- **When a round breaks a grammar**: its fixes can always be applied, and the text that
    comes out has no syntax errors exactly if no run was counted too deep.  Counting a run
    puts a group around a factor with a count or an exception, and nobody looks how many
    brackets there are already. -/
theorem round_clean_iff (s : Text) (hsize : s.size < 2 ^ 32) (h : (parse s).diagnostics = []) :
    ∃ fixes s', Fix.offerAll (parse s) (parse s).analyze = .ok fixes ∧
      Fix.apply s fixes = .ok s' ∧
      ((parse s').diagnostics = [] ↔
        ∀ kr ∈ (parse s).runsWithDepth, ¬TooDeep fixes maxNesting kr) := by
  obtain ⟨fixes, s', hoffer, happly, ls, rs', hwrites, hwhole, hfits, hderives, hrevised, hnone⟩ :=
    round_writes h
  refine ⟨fixes, s', hoffer, happly, ?_⟩
  rw [(parse_of_writes hwrites hwhole hderives).1, and_iff_left (hfits hsize)]
  rw [Rule.revised_fits_iff (fun r hr => (parse_whole (List.mem_filter.mp hr).1).2) hrevised]
  constructor
  · intro hall kr hkr
    obtain ⟨r, hr, hmem⟩ := List.mem_flatMap.mp hkr
    by_cases hreaches : (parse s).Reaches r.name
    · exact hall r (List.mem_filter.mpr ⟨hr, by simpa using hreaches⟩) kr hmem
    · exact fun hdeep => hnone r hr hreaches kr hmem hdeep.1
  · intro hall r hr kr hkr
    exact hall kr (List.mem_flatMap.mpr ⟨r, (List.mem_filter.mp hr).1, hkr⟩)

/-- A round that counts an exception within brackets breaks nothing. -/
theorem round_clean_counted :
    Text.size "a = [ b - 'x' , b - 'x' ] ; b = 'y' ;".toList < 2 ^ 32 ∧
      (parse "a = [ b - 'x' , b - 'x' ] ; b = 'y' ;".toList).diagnostics = [] ∧
      ∃ fixes s', Fix.offerAll (parse "a = [ b - 'x' , b - 'x' ] ; b = 'y' ;".toList)
          (parse "a = [ b - 'x' , b - 'x' ] ; b = 'y' ;".toList).analyze = .ok fixes ∧
        Fix.apply "a = [ b - 'x' , b - 'x' ] ; b = 'y' ;".toList fixes = .ok s' ∧
        (parse s').diagnostics = [] := by
  have hsize : Text.size "a = [ b - 'x' , b - 'x' ] ; b = 'y' ;".toList < 2 ^ 32 := by
    decide +kernel
  have hclean : (parse "a = [ b - 'x' , b - 'x' ] ; b = 'y' ;".toList).diagnostics = [] := by
    decide +kernel
  have hshallow : ∀ kr ∈ (parse "a = [ b - 'x' , b - 'x' ] ; b = 'y' ;".toList).runsWithDepth,
      kr.1 + 1 + kr.2.factor.nesting ≤ maxNesting := by
    decide +kernel
  obtain ⟨fixes, s', hoffer, happly, hiff⟩ := round_clean_iff _ hsize hclean
  refine ⟨hsize, hclean, fixes, s', hoffer, happly, hiff.mpr fun kr hkr hdeep => ?_⟩
  exact absurd (hshallow kr hkr) (Nat.not_le_of_lt hdeep.2.2)

end Grammar

end EbnfKit
