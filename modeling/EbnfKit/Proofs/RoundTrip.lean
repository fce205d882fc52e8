import EbnfKit.Proofs.Documentation

/-! # Round trip — printing a grammar and parsing it again

    Whatever the text, the rules that were read from it are printed as a text without
    syntax errors, which is read as the same rules with the same comments:

      g = parse s,  g' = parse g.render     imply   g'.diagnostics = []
                                                    g' has the rules of g, up to marks
                                                    each with the comment that it had
                                                    g'.render = g.render

    Rules that could not be read are not in `g`, and so do not matter. -/

namespace EbnfKit

open Unicode

/-! ## Rules that were read -/

/-- Each of the items stands over a stretch of the tokens. -/
theorem Amid.stretch {β : Type} {item : List Token → β → Prop} {ts : List Token} {xs : List β}
    (h : Amid item ts xs) {x : β} (hx : x ∈ xs) : ∃ used, used <:+: ts ∧ item used x := by
  induction h with
  | nil => cases hx
  | @skip ts us xs _ ih =>
      obtain ⟨used, hused, hitem⟩ := ih hx
      exact ⟨used, hused.trans (List.suffix_append ts us).isInfix, hitem⟩
  | @cons ts y us ys hy _ ih =>
      rcases List.mem_cons.mp hx with heq | hmem
      · rw [heq]
        exact ⟨ts, (List.prefix_append ts us).isInfix, hy⟩
      · obtain ⟨used, hused, hitem⟩ := ih hmem
        exact ⟨used, hused.trans (List.suffix_append ts us).isInfix, hitem⟩

theorem Amid.sublist {β : Type} {item : List Token → β → Prop} {ts : List Token} {xs : List β}
    (h : Amid item ts xs) {x : β} (hx : x ∈ xs) : ∃ used, used.Sublist ts ∧ item used x := by
  obtain ⟨used, hused, hitem⟩ := h.stretch hx
  exact ⟨used, hused.sublist, hitem⟩

/-- Only the last significant token of a text can be an open string. -/
theorem significant_strings (s : Text) : (significant s).Pairwise fun t _ =>
    t.kind = .stringLiteral → Lexeme.isClosed t.text = true := by
  rw [significant_eq]
  refine List.Pairwise.sublist List.filter_sublist ?_
  have h := lexemes_strings s
  rw [← map_lexeme_tokensAt 0 (lexemes s), List.pairwise_map] at h
  exact h

/-- A significant token is whole, unless it is an open string. -/
theorem whole_of_closed {s : Text} {t : Token} (ht : t ∈ significant s)
    (hclosed : t.kind = .stringLiteral → Lexeme.isClosed t.text = true) : t.lexeme.Whole := by
  have hlex := (significant_scanned s).lexical t ht
  have htrivia : t.lexeme.kind.isTrivia = false := by
    rw [significant_eq] at ht
    exact Bool.not_eq_true' _ ▸ (List.mem_filter.mp ht).2
  refine ⟨hlex, htrivia, ?_⟩
  unfold Lexeme.Ends
  split <;> simp_all [TokenKind.isTrivia, Token.lexeme]

/-- The tokens of a rule are whole, for its semicolon stands behind its strings. -/
theorem wholes_of_fits {s : Text} {used : List Token} {r : Rule Span}
    (hused : used.Sublist (significant s)) (h : Parser.RuleFits maxNesting used r) :
    ∀ t ∈ used, t.lexeme.Whole ∧ t.lexeme.Fits := by
  have hclosed : ∀ t ∈ used, t.kind = .stringLiteral → Lexeme.isClosed t.text = true := by
    have hpair := (significant_strings s).sublist hused
    cases h.derives with
    | @mk x e ws c _ _ _ _ _ _ hc _ _ =>
        intro t ht hk
        rcases List.mem_append.mp ht with ht | ht
        · exact (List.pairwise_append.mp hpair).2.2 t ht c (List.mem_singleton_self c) hk
        · rw [List.mem_singleton.mp ht, show c.kind = .semicolon from hc] at hk
          cases hk
  intro t ht
  exact ⟨whole_of_closed (hused.subset ht) (hclosed t ht), h.counts t ht⟩

/-- A rule that was read can be printed. -/
theorem Grammar.parse_whole {s : Text} {r : Rule Span} (h : r ∈ (parse s).rules) :
    (∀ l ∈ r.lexemes, l.Whole ∧ l.Fits) ∧ r.body.nesting ≤ maxNesting := by
  obtain ⟨used, hused, hfits⟩ := (parse_amid s).sublist h
  exact ⟨hfits.derives.lasting lasting_fits (wholes_of_fits hused hfits), hfits.nesting⟩

/-! ## Entries -/

/-- A line break by itself. -/
def newline : Lexeme :=
  ⟨.whitespace, ['\n']⟩

/-- A rule below its comment, if it has one. -/
def renderEntry {α : Type} (c : Option Text) (r : Rule α) : Text :=
  (c.map renderComment).getD [] ++ r.render ++ ['\n']

/-- The lexemes of a printed comment, and the line break after it. -/
def commentLine : Option Text → List Lexeme
  | none => []
  | some c => (Lexeme.opened (' ' :: c ++ [' ']) ++ [⟨.commentEnd, Lexeme.closing⟩]) ++ [newline]

/-- The lexemes of an entry, trivia included. -/
def entryLexemes {α : Type} (c : Option Text) (r : Rule α) : List Lexeme :=
  commentLine c ++ (lexemes r.render ++ [newline])

/-- The text does not begin with white space. -/
def Unindented (y : Text) : Prop :=
  ∀ d ∈ y.head?, isWhiteSpace d = false

theorem lexemes_newline {y : Text} (hy : Unindented y) :
    lexemes ('\n' :: y) = newline :: lexemes y :=
  lexemes_white (List.cons_ne_nil '\n' []) (List.forall_mem_singleton.mpr (by decide)) hy

theorem render_unindented {α : Type} {r : Rule α} (h : Wholes r.lexemes) (y : Text) :
    Unindented (r.render ++ y) := by
  intro d hd
  obtain ⟨e, es, htext, hblank, -⟩ := (wholes_cons.mp h).1.lexical
  have hname : r.name = e :: es := htext
  rw [Rule.render, hname] at hd
  rw [← Option.some.inj hd]
  exact hblank

/-- A rule begins with its name. -/
theorem lexemes_rule_head {α : Type} {r : Rule α} (h : Wholes r.lexemes) :
    ∃ ls, lexemes r.render = ⟨.identifier, r.name⟩ :: ls := by
  have hname := (wholes_cons.mp h).1
  refine ⟨lexemes ([' ', '=', ' '] ++ r.body.render ++ [' ', ';']), ?_⟩
  have hsplit : r.render = r.name ++ ([' ', '=', ' '] ++ r.body.render ++ [' ', ';']) := by
    simp [Rule.render]
  rw [hsplit]
  exact lexemes_lexeme hname.lexical hname.significant
    (hname.ends.separator (Or.inl (by decide)) rfl _)

/-- A rule ends in its semicolon. -/
theorem lexemes_rule_last {α : Type} {r : Rule α} (h : Wholes r.lexemes) :
    ∃ ls, lexemes r.render = ls ++ [.sign ';'] := by
  obtain ⟨hfilter, hfinished⟩ := lexemes_rule h
  have hne : lexemes r.render ≠ [] := by
    obtain ⟨ls, hls⟩ := lexemes_rule_head h
    rw [hls]
    exact List.cons_ne_nil _ _
  obtain ⟨ls, m, hlast⟩ : ∃ ls m, lexemes r.render = ls ++ [m] :=
    ⟨_, _, (List.dropLast_concat_getLast hne).symm⟩
  have hlex := lexemes_lexical r.render m (by rw [hlast]; simp)
  have hends : m.Ends [] := hfinished m (by rw [hlast, List.getLast?_concat]; rfl)
  have hchar : m.text.getLast? = some ';' := by
    have htexts := lexemes_texts r.render
    rw [hlast, List.flatMap_append, List.flatMap_singleton] at htexts
    have hsemi := congrArg List.getLast? htexts
    have hrender : r.render.getLast? = some ';' := by
      rw [Rule.render, List.getLast?_append]
      rfl
    rw [hrender, List.getLast?_append] at hsemi
    obtain ⟨c, hc⟩ := List.getLast?_isSome.mpr hlex.ne_nil |> Option.isSome_iff_exists.mp
    rw [hc] at hsemi ⊢
    exact hsemi
  have hmem := List.mem_of_getLast? hchar
  -- it is no white space and no part of a comment, for it ends in a semicolon
  have hsolid : m.kind.isTrivia = false := by
    obtain ⟨kind, text⟩ := m
    cases kind <;> try rfl
    · exact False.elim hends
    · exact False.elim hends
    · rw [show text = Lexeme.closing from hlex] at hchar
      cases hchar
    · exact absurd (hlex.2 ';' hmem) (by decide)
  refine ⟨ls, ?_⟩
  have hlasts := congrArg List.getLast? hfilter
  rw [hlast, List.filter_append, List.filter_cons_of_pos (by simp [hsolid]), List.filter_nil,
    List.getLast?_concat] at hlasts
  have hrule : r.lexemes.getLast? = some (.sign ';') :=
    List.getLast?_concat (l := ⟨.identifier, r.name⟩ :: Lexeme.sign '=' :: r.body.lexemes)
  rw [hlast, Option.some.inj (hlasts.trans hrule)]

/-- **A printed entry is scanned as its comment, its rule and the line breaks.** -/
theorem lexemes_entry {α : Type} {c : Option Text} {r : Rule α} {y : Text}
    (hr : Wholes r.lexemes) (hc : ∀ t ∈ c, Lexeme.Unmarked t) (hy : Unindented y) :
    lexemes (renderEntry c r ++ y) = entryLexemes c r ++ lexemes y := by
  have hrule : lexemes (r.render ++ '\n' :: y) = lexemes r.render ++ newline :: lexemes y := by
    obtain ⟨ks, hlast⟩ := lexemes_rule_last hr
    rw [lexemes_append, lexemes_newline hy]
    intro l hl
    rw [hlast, List.getLast?_concat] at hl
    rw [← Option.some.inj hl]
    trivial
  rw [entryLexemes, renderEntry]
  cases c with
  | none =>
      show lexemes (([] ++ r.render ++ ['\n']) ++ y) = [] ++ (lexemes r.render ++ [newline]) ++ _
      rw [List.nil_append, List.nil_append, List.append_assoc, List.append_assoc,
        List.singleton_append, hrule]
      rfl
  | some c =>
      have hbody := (hc c rfl).spaced
      have hsplit : ((some c).map renderComment).getD [] ++ r.render ++ ['\n'] ++ y
          = '(' :: '*' :: (' ' :: c ++ [' '] ++ Lexeme.closing ++
            '\n' :: (r.render ++ '\n' :: y)) := by
        simp [renderComment, Lexeme.closing]
      rw [hsplit, lexemes_comment hbody, lexemes_newline (render_unindented hr _), hrule,
        commentLine]
      simp

/-- The entries of a grammar, with `f` as their comments. -/
def renderEntries {α : Type} (f : Rule α → Option Text) (rs : List (Rule α)) : Text :=
  rs.flatMap fun r => renderEntry (f r) r

theorem renderEntries_unindented {α : Type} {f : Rule α → Option Text} {rs : List (Rule α)}
    (hrs : ∀ r ∈ rs, Wholes r.lexemes) : Unindented (renderEntries f rs) := by
  cases rs with
  | nil => exact fun _ h => nomatch h
  | cons r rs =>
      rw [renderEntries, List.flatMap_cons, renderEntry]
      cases hf : f r with
      | none =>
          rw [Option.map_none, Option.getD_none, List.nil_append, List.append_assoc]
          exact render_unindented (hrs r List.mem_cons_self) _
      | some c =>
          intro d hd
          rw [← Option.some.inj hd]
          decide

theorem lexemes_entries {α : Type} {f : Rule α → Option Text} {rs : List (Rule α)}
    (hrs : ∀ r ∈ rs, Wholes r.lexemes ∧ ∀ t ∈ f r, Lexeme.Unmarked t) :
    lexemes (renderEntries f rs) = rs.flatMap fun r => entryLexemes (f r) r := by
  induction rs with
  | nil => exact lexemes_nil
  | cons r rs ih =>
      obtain ⟨⟨hr, hc⟩, hrest⟩ := List.forall_mem_cons.mp hrs
      have hy := @renderEntries_unindented _ f rs fun r h => (hrest r h).1
      rw [List.flatMap_cons, ← ih hrest]
      exact lexemes_entry hr hc hy

/-- The entries write the lexemes of their rules. -/
theorem renderEntries_writes {α : Type} {f : Rule α → Option Text} {rs : List (Rule α)}
    (hrs : ∀ r ∈ rs, Wholes r.lexemes ∧ ∀ t ∈ f r, Lexeme.Unmarked t) :
    Writes (renderEntries f rs) (rs.flatMap Rule.lexemes) := by
  induction rs with
  | nil => exact .nil
  | cons r rs ih =>
      obtain ⟨⟨hr, hc⟩, hrest⟩ := List.forall_mem_cons.mp hrs
      have hnewline : Writes ['\n'] [] := .blank (by decide)
      have hcomment : Writes ((f r).map renderComment |>.getD []) [] := by
        cases hf : f r with
        | none => exact .nil
        | some c =>
            have := (Writes.comment (hc c hf).spaced).append hnewline
            simpa [renderComment, Lexeme.closing] using this
      have hentry := (hcomment.append (Rule.render_writes hr)).append hnewline
      rw [List.nil_append, List.append_nil] at hentry
      exact hentry.append (ih hrest)

/-! ## Comments stay with their rules -/

theorem isTrivia_commentLine (c : Option Text) :
    ∀ l ∈ commentLine c, l.kind.isTrivia = true := by
  cases c with
  | none => exact fun _ h => nomatch h
  | some c =>
      intro l hl
      rcases List.mem_append.mp hl with hl | hl
      · exact Lexeme.isTrivia_comment l hl
      · rw [List.mem_singleton.mp hl]
        rfl

/-- No comment stands directly above what follows the lexemes. -/
def NoneAbove (ls : List Lexeme) : Prop :=
  ∀ offset, Comments.above? (tokensAt offset ls).reverse = none

theorem above?_newline {ls : List Lexeme} {offset : Nat} :
    Comments.above? (tokensAt offset (ls ++ [newline])).reverse
      = Comments.above? (tokensAt offset ls).reverse := by
  rw [tokensAt_append, List.reverse_append]
  rfl

/-- The comment line above a rule is the comment that is found there. -/
theorem above?_commentLine {ls : List Lexeme} (hls : NoneAbove ls) {c : Option Text}
    (hc : ∀ t ∈ c, Trimmed t) (offset : Nat) :
    Comments.above? (tokensAt offset (ls ++ commentLine c)).reverse = c := by
  cases c with
  | none =>
      rw [commentLine, List.append_nil]
      exact hls offset
  | some c =>
      have hsplit : ls ++ commentLine (some c)
          = ls ++ [⟨.commentStart, ['(', '*']⟩, ⟨.comment, ' ' :: c ++ [' ']⟩,
              ⟨.commentEnd, Lexeme.closing⟩] ++ [newline] := by
        simp [commentLine, Lexeme.opened]
      rw [hsplit, above?_newline, tokensAt_append, List.reverse_append]
      exact congrArg some (trim_spaced (hc c rfl))

theorem noneAbove_rule {α : Type} {r : Rule α} (hr : Wholes r.lexemes) (ls : List Lexeme) :
    NoneAbove (ls ++ (lexemes r.render ++ [newline])) := by
  intro offset
  obtain ⟨ks, hlast⟩ := lexemes_rule_last hr
  rw [← List.append_assoc, above?_newline, hlast, ← List.append_assoc, tokensAt_append,
    List.reverse_append]
  rfl

/-- The tokens of a printed rule derive it, from where it starts. -/
theorem derives_printed {α : Type} {r : Rule α} (hr : Wholes r.lexemes) (offset : Nat) :
    ∃ r' : Rule Span, Rule.Derives .placed (withoutTrivia (tokensAt offset (lexemes r.render))) r' ∧
      r'.shape = r.shape ∧ r'.mark.start = offset := by
  obtain ⟨hfilter, -⟩ := lexemes_rule hr
  have hmap : (withoutTrivia (tokensAt offset (lexemes r.render))).map Token.lexeme
      = r.lexemes.map id := by
    rw [map_lexeme_withoutTrivia, hfilter, List.map_id]
  obtain ⟨r', hr', hshape⟩ := (Rule.lexemes_derive hr).transport placed_marks hmap
  refine ⟨r', hr', hshape.trans (Rule.shape_unit r.shape), ?_⟩
  obtain ⟨ls, hhead⟩ := lexemes_rule_head hr
  rw [hr'.mark_eq, hhead]
  rfl

/-- Of an entry, the comment line and the line break are trivia. -/
theorem withoutTrivia_entry {α : Type} (offset : Nat) (c : Option Text) (r : Rule α) :
    withoutTrivia (tokensAt offset (entryLexemes c r))
      = withoutTrivia (tokensAt (offset + Text.size (spelled (commentLine c)))
          (lexemes r.render)) := by
  rw [entryLexemes, tokensAt_append, tokensAt_append, withoutTrivia_append, withoutTrivia_append,
    withoutTrivia_eq_nil (isTrivia_commentLine c),
    @withoutTrivia_eq_nil [newline] (by simp [newline, TokenKind.isTrivia]), List.nil_append,
    List.append_nil]

/-- **Printed rules are read with the comments printed above them.** -/
theorem entries_derive {α : Type} {f : Rule α → Option Text} {x : Text} :
    ∀ (rs : List (Rule α)) (before : List Lexeme),
      (∀ r ∈ rs, Wholes r.lexemes ∧ ∀ t ∈ f r, Trimmed t) → NoneAbove before →
      lexemes x = before ++ rs.flatMap (fun r => entryLexemes (f r) r) →
      ∃ rs' : List (Rule Span),
        Rule.DerivesAll .placed (withoutTrivia (tokensAt (Text.size (spelled before))
          (rs.flatMap fun r => entryLexemes (f r) r))) rs' ∧
        rs'.map (fun r' => (r'.shape, Comments.leading? (tokenize x) r'.mark.start))
          = rs.map fun r => (r.shape, f r) := by
  intro rs
  induction rs with
  | nil =>
      intro before _ _ _
      exact ⟨[], .nil, rfl⟩
  | cons r rs ih =>
      intro before hrs hnone hx
      obtain ⟨⟨hr, hc⟩, hrest⟩ := List.forall_mem_cons.mp hrs
      rw [List.flatMap_cons] at hx ⊢
      have hafter := noneAbove_rule hr (before ++ commentLine (f r))
      have hsplit : before ++ (entryLexemes (f r) r ++ rs.flatMap fun r => entryLexemes (f r) r)
          = (before ++ commentLine (f r) ++ (lexemes r.render ++ [newline])) ++
            rs.flatMap fun r => entryLexemes (f r) r := by
        simp [entryLexemes]
      -- what is above the later rules is all that comes up to this one's line break
      obtain ⟨rs', hrs', hall⟩ := ih _ hrest hafter (hx.trans hsplit)
      obtain ⟨r', hr', hshape, hstart⟩ :=
        derives_printed hr (Text.size (spelled (before ++ commentLine (f r))))
      obtain ⟨ls, hhead⟩ := lexemes_rule_head hr
      have hfound : Comments.leading? (tokenize x) r'.mark.start = f r := by
        rw [hsplit, hhead, List.cons_append, List.append_assoc, List.cons_append] at hx
        rw [hstart, Comments.leading?_eq hx]
        exact above?_commentLine hnone hc 0
      refine ⟨r' :: rs', ?_, by rw [List.map_cons, List.map_cons, hall, hshape, hfound]⟩
      rw [List.append_assoc, spelled_append, Text.size_append] at hrs'
      rw [spelled_append, Text.size_append] at hr'
      rw [tokensAt_append, withoutTrivia_append, withoutTrivia_entry]
      exact .cons hr' hrs'

/-! ## The round trip -/

namespace Grammar

/-- What a grammar prints depends on the shapes of its rules and on their comments. -/
theorem render_congr {g g' : Grammar}
    (h : g'.rules.map (fun r => (r.shape, g'.comment? r))
      = g.rules.map fun r => (r.shape, g.comment? r)) : g'.render = g.render := by
  have hrender : ∀ g : Grammar, g.render
      = (g.rules.map fun r => (r.shape, g.comment? r)).flatMap fun e => renderEntry e.2 e.1 := by
    intro g
    rw [List.flatMap_map, render]
    congr 1
    funext r
    rw [renderEntry, Rule.render, Rule.render]
    show _ = _ ++ (r.name ++ _ ++ r.body.shape.render ++ _) ++ _
    rw [render_shape.expressions r.body]
  rw [hrender, hrender, h]

theorem wholes_rules {α : Type} {rs : List (Rule α)} (h : ∀ r ∈ rs, Wholes r.lexemes) :
    Wholes (rs.flatMap Rule.lexemes) := by
  intro l hl
  obtain ⟨r, hr, hmem⟩ := List.mem_flatMap.mp hl
  exact h r hr l hmem

theorem rules_derive {α : Type} {rs : List (Rule α)} (h : ∀ r ∈ rs, Wholes r.lexemes) :
    Rule.DerivesAll .bare (rs.flatMap Rule.lexemes) (rs.map Rule.shape) := by
  induction rs with
  | nil => exact .nil
  | cons r rs ih =>
      obtain ⟨hr, hrs⟩ := List.forall_mem_cons.mp h
      exact .cons (Rule.lexemes_derive hr) (ih hrs)

/-- The rules of a printed grammar, each with its comment. -/
theorem parse_render (s : Text) :
    (parse (parse s).render).diagnostics = [] ∧
      (parse (parse s).render).rules.map
          (fun r => (r.shape, (parse (parse s).render).comment? r))
        = (parse s).rules.map fun r => (r.shape, (parse s).comment? r) := by
  have hwhole : ∀ r ∈ (parse s).rules, Wholes r.lexemes :=
    fun r hr l hl => ((parse_whole hr).1 l hl).1
  have hunmarked : ∀ r ∈ (parse s).rules, Wholes r.lexemes ∧
      ∀ t ∈ (parse s).comment? r, Lexeme.Unmarked t :=
    fun r hr => ⟨hwhole r hr, fun t ht => (comment?_kept hr ht).2⟩
  have htrimmed : ∀ r ∈ (parse s).rules, Wholes r.lexemes ∧
      ∀ t ∈ (parse s).comment? r, Trimmed t :=
    fun r hr => ⟨hwhole r hr, fun t ht => (comment?_kept hr ht).1⟩
  have hnesting : ∀ r ∈ (parse s).rules, r.body.nesting ≤ maxNesting :=
    fun r hr => (parse_whole hr).2
  have hclean : (parse (parse s).render).diagnostics = [] := by
    have hwrites : Writes (parse s).render ((parse s).rules.flatMap Rule.lexemes) :=
      renderEntries_writes hunmarked
    refine (parse_of_writes hwrites (wholes_rules hwhole) (rules_derive hwhole)).1.mpr ?_
    constructor
    · refine (forall_nesting_of_shapes ?_).mp hnesting
      rw [List.map_map]
      exact List.map_congr_left fun r _ => (Rule.shape_unit r.shape).symm
    · intro l hl
      obtain ⟨r, hr, hmem⟩ := List.mem_flatMap.mp hl
      exact ((parse_whole hr).1 l hmem).2
  have hlexemes := lexemes_entries hunmarked
  obtain ⟨rs', hrs', hentries⟩ := entries_derive (parse s).rules [] htrimmed
    (fun _ => rfl) hlexemes
  have hsignificant : significant (parse s).render = withoutTrivia (tokensAt 0
      ((parse s).rules.flatMap fun r => entryLexemes ((parse s).comment? r) r)) := by
    rw [significant_eq, ← hlexemes]
    rfl
  have hsame : rs' = (parse (parse s).render).rules :=
    rules_unique hclean (hsignificant ▸ hrs')
  refine ⟨hclean, ?_⟩
  rw [← hentries, hsame]
  refine List.map_congr_left fun r hr => ?_
  rw [comment?_eq hr]
  rfl

/-- **Printing round-trips**: the text that a grammar prints has no syntax errors, and is
    read as the same rules with the same comments, which print the same text again. -/
theorem render_round_trip (s : Text) :
    (parse (parse s).render).diagnostics = [] ∧
      (parse (parse s).render).rules.map Rule.shape = (parse s).rules.map Rule.shape ∧
      (parse (parse s).render).rules.map (parse (parse s).render).comment?
        = (parse s).rules.map (parse s).comment? ∧
      (parse (parse s).render).render = (parse s).render := by
  obtain ⟨hclean, hentries⟩ := parse_render s
  refine ⟨hclean, ?_, ?_, render_congr hentries⟩
  · have := congrArg (List.map Prod.fst) hentries
    rwa [List.map_map, List.map_map] at this
  · have := congrArg (List.map Prod.snd) hentries
    rwa [List.map_map, List.map_map] at this

end Grammar

end EbnfKit
