import EbnfKit.Proofs.Recovery
import EbnfKit.Proofs.RoundTrip

/-! # Halves — a text behind another that ends in a semicolon

    Whatever is wrong with a text, it does not get past a semicolon.  If the last token of a
    is one, what comes behind is read as if it stood alone:

      rules of a ++ b     =   rules of a, then those of b, moved
      comments            as in a, or in b
      problems of a ++ b  =   those of b, moved,   if a has none -/

namespace EbnfKit

variable {a b : Text}

/-! ## Tokens -/

/-- The last token in front of the end is a semicolon. -/
def EndsInSemicolon (a : Text) : Prop :=
  ∃ ts t, tokenize a = ts ++ [t, .atEnd a.size] ∧ t.kind = .semicolon

theorem EndsInSemicolon.tokens (h : EndsInSemicolon a) :
    ∃ ts t, tokensAt 0 (lexemes a) = ts ++ [t] ∧ t.kind = .semicolon := by
  obtain ⟨ts, t, hts, ht⟩ := h
  rw [tokenize_eq, List.append_cons ts t [.atEnd a.size]] at hts
  exact ⟨ts, t, List.append_cancel_right hts, ht⟩

/-- The tokens of the text behind are those that it has by itself, moved. -/
theorem EndsInSemicolon.lexemes_append (h : EndsInSemicolon a) (b : Text) :
    lexemes (a ++ b) = lexemes a ++ lexemes b := by
  obtain ⟨ts, t, hts, ht⟩ := h.tokens
  refine EbnfKit.lexemes_append fun l hl => ?_
  have hlexemes := congrArg (List.map Token.lexeme) hts
  rw [map_lexeme_tokensAt, List.map_append, List.map_singleton] at hlexemes
  rw [hlexemes, List.getLast?_concat] at hl
  have hk : l.kind = .semicolon := by
    rw [← Option.some.inj hl]
    exact ht
  rw [Lexeme.Ends, hk]
  trivial

theorem size_spelled_lexemes (a : Text) : Text.size (spelled (lexemes a)) = Text.size a := by
  rw [spelled, lexemes_texts]

theorem EndsInSemicolon.tokenize_append (h : EndsInSemicolon a) (b : Text) :
    tokenize (a ++ b) = tokensAt 0 (lexemes a) ++ (tokenize b).map (Token.shift a.size) := by
  have hend : Token.atEnd (Text.size (a ++ b)) = (Token.atEnd b.size).shift a.size := by
    rw [Text.size_append, Nat.add_comm]
    rfl
  rw [tokenize_eq, tokenize_eq, h.lexemes_append, tokensAt_append, size_spelled_lexemes,
    tokensAt_shift, List.map_append, List.append_assoc, hend]
  rfl

theorem EndsInSemicolon.significant_append (h : EndsInSemicolon a) (b : Text) :
    significant (a ++ b) = significant a ++ (significant b).map (Token.shift a.size) := by
  rw [significant_eq, significant_eq, significant_eq, h.lexemes_append, tokensAt_append,
    size_spelled_lexemes, tokensAt_shift, List.filter_append, List.filter_map]
  rfl

theorem EndsInSemicolon.closed_tokensAt (h : EndsInSemicolon a) :
    Parser.Closed (tokensAt 0 (lexemes a)) := by
  obtain ⟨ts, t, hts, ht⟩ := h.tokens
  rw [Parser.Closed, hts, List.getLast?_concat]
  intro u hu
  rwa [← Option.some.inj hu]

theorem EndsInSemicolon.closed (h : EndsInSemicolon a) : Parser.Closed (significant a) := by
  obtain ⟨ts, t, hts, ht⟩ := h.tokens
  have hkept : [t].filter (fun t => !t.kind.isTrivia) = [t] :=
    List.filter_eq_self.mpr (List.forall_mem_singleton.mpr (by rw [ht]; rfl))
  rw [Parser.Closed, significant_eq, hts, List.filter_append, hkept, List.getLast?_concat]
  intro u hu
  rw [← Option.some.inj hu]
  exact ht

/-! ## Comments -/

namespace Comments

/-- Where a comment ends shows before the first token that is no body of one. -/
theorem openEnd?_append {ts : List Token} (h : ∃ t ∈ ts, t.kind ≠ .comment) (stop : Nat)
    (us : List Token) : openEnd? stop (ts ++ us) = openEnd? stop ts := by
  induction ts generalizing stop with
  | nil =>
      obtain ⟨t, ht, -⟩ := h
      cases ht
  | cons t ts ih =>
      rw [List.cons_append, openEnd?_cons, openEnd?_cons]
      by_cases hk : t.kind = .comment
      · obtain ⟨u, hu, hne⟩ := h
        have hrest := (List.mem_cons.mp hu).resolve_left fun heq => hne (heq ▸ hk)
        rw [if_pos hk, if_pos hk, ih ⟨u, hrest, hne⟩]
      · rw [if_neg hk, if_neg hk]

theorem openEnd?_shift (n stop : Nat) (ts : List Token) :
    openEnd? (stop + n) (ts.map (Token.shift n)) = (openEnd? stop ts).map (· + n) := by
  induction ts generalizing stop with
  | nil => rfl
  | cons t ts ih =>
      have hstop : (t.shift n).span.stop = t.span.stop + n := rfl
      have hkind : (t.shift n).kind = t.kind := rfl
      rw [List.map_cons, openEnd?_cons, openEnd?_cons, hstop, hkind, ih]
      split
      · rfl
      split <;> rfl

theorem unterminatedAll_append {ts : List Token} (h : Parser.Closed ts) (us : List Token) :
    unterminatedAll (ts ++ us) = unterminatedAll ts ++ unterminatedAll us := by
  induction ts with
  | nil => rfl
  | cons t ts ih =>
      rw [List.cons_append, unterminatedAll, unterminatedAll, ih (@Parser.Closed.of_append [t] ts h)]
      by_cases hk : t.kind = .commentStart
      · rw [if_pos hk, if_pos hk]
        -- it is not the last token, and the last one is no body of a comment
        have hne : ts ≠ [] := by
          rintro rfl
          rw [h t rfl] at hk
          cases hk
        have hlast := (@Parser.Closed.of_append [t] ts h) _ (List.getLast?_eq_some_getLast hne)
        rw [openEnd?_append ⟨_, List.getLast_mem hne, by rw [hlast]; decide⟩]
        cases openEnd? t.span.stop ts <;> rfl
      · rw [if_neg hk, if_neg hk]

theorem unterminatedAll_shift (n : Nat) (ts : List Token) :
    unterminatedAll (ts.map (Token.shift n)) = (unterminatedAll ts).map (Diagnostic.shift n) := by
  induction ts with
  | nil => rfl
  | cons t ts ih =>
      have hstop : (t.shift n).span.stop = t.span.stop + n := rfl
      have hkind : (t.shift n).kind = t.kind := rfl
      rw [List.map_cons, unterminatedAll, unterminatedAll, hkind, hstop, openEnd?_shift, ih]
      split
      · cases openEnd? t.span.stop ts <;> rfl
      · rfl

theorem above?_cons (t : Token) (ts : List Token) : above? (t :: ts)
    = if t.kind = .whitespace then (if t.text.count '\n' ≤ 1 then above? ts else none)
      else if t.kind = .commentEnd then
        ts.head?.map fun u => if u.kind = .comment then u.text.trim else []
      else none := by
  conv_lhs => unfold above?
  split
  · rename_i hk
    rw [if_pos hk]
  · rename_i hk
    rw [hk, if_neg (by decide), if_pos rfl]
    cases ts with
    | nil => rfl
    | cons u us =>
        exact (apply_ite some (u.kind = .comment) _ _).symm
  · rename_i hblank hend
    rw [if_neg hblank, if_neg hend]

theorem above?_shift (n : Nat) (ts : List Token) : above? (ts.map (Token.shift n)) = above? ts := by
  induction ts with
  | nil => rfl
  | cons t ts ih =>
      have hkind : (t.shift n).kind = t.kind := rfl
      have htext : (t.shift n).text = t.text := rfl
      rw [List.map_cons, above?_cons, above?_cons, ih, hkind, htext, List.head?_map, Option.map_map]
      rfl

/-- A comment is not looked for behind a semicolon. -/
theorem above?_append {ts us : List Token} {t : Token} (ht : t.kind = .semicolon)
    (hts : ∀ u ∈ ts.getLast?, u.kind ≠ .commentEnd) : above? (ts ++ t :: us) = above? ts := by
  have hnone : above? (t :: us) = none := by
    rw [above?_cons, ht]
    rfl
  induction ts with
  | nil => exact hnone
  | cons u ts ih =>
      rw [List.cons_append, above?_cons, above?_cons]
      cases ts with
      | nil => rw [List.nil_append, hnone, if_neg (hts u rfl), if_neg (hts u rfl)]
               rfl
      | cons v ts =>
          rw [List.getLast?_cons_cons] at hts
          rw [ih hts]
          rfl

end Comments

/-! ## Rules -/

namespace Grammar

/-- A significant token stands behind the lexemes in front of it. -/
theorem exists_lexemes_of_token {s : Text} {t : Token} (h : t ∈ significant s) :
    ∃ ls ms, lexemes s = ls ++ t.lexeme :: ms ∧ t.span.start = Text.size (spelled ls) := by
  rw [significant_eq] at h
  obtain ⟨front, back, hsplit⟩ := List.append_of_mem (List.mem_filter.mp h).1
  obtain ⟨hlexemes, -, hplaced⟩ := tokensAt_eq_append hsplit
  rw [Nat.zero_add] at hplaced
  exact ⟨_, _, hlexemes, congrArg (fun u : Token => u.span.start) (List.cons.inj hplaced).1⟩

/-- A rule starts behind the lexemes in front of it. -/
theorem exists_lexemes_of_rule {s : Text} {r : Rule Span} (h : r ∈ (parse s).rules) :
    ∃ ls l ms, lexemes s = ls ++ l :: ms ∧ r.mark.start = Text.size (spelled ls) := by
  obtain ⟨used, hused, hfits⟩ := (parse_amid s).stretch h
  have hne := Parser.rule_ne_nil hfits.derives
  obtain ⟨ls, ms, hlexemes, hstart⟩ := exists_lexemes_of_token (hused.subset (List.head_mem hne))
  rw [← Span.over_start hne, ← hfits.derives.mark_eq] at hstart
  exact ⟨ls, _, ms, hlexemes, hstart⟩

/-- The end of the input moves along. -/
theorem point_append (a b : Text) :
    Span.point (Text.size (a ++ b)) = (Span.point b.size).shift a.size := by
  rw [Text.size_append, Nat.add_comm]
  rfl

theorem rules_append (h : EndsInSemicolon a) (b : Text) : (parse (a ++ b)).rules
    = (parse a).rules ++ (parse b).rules.map (Rule.map (Span.shift a.size)) := by
  have hboth := Parser.rulesOf_append 0 ((significant b).map (Token.shift a.size)) (.point a.size)
    (.point (Text.size (a ++ b))) _ (significant a) (Nat.le_refl _) h.closed
  have hsame : Rule.map (id : Span → Span) = id := funext Rule.map_id
  rw [Token.shift_zero, Span.shift_zero, hsame, List.map_id, List.map_id, point_append,
    Parser.rulesOf_shift, ← point_append, ← h.significant_append] at hboth
  rw [rules_eq, rules_eq, rules_eq]
  exact hboth

/-- The comment of a rule is what stands above it in its own half. -/
theorem comment?_append_left (h : EndsInSemicolon a) (b : Text) {r : Rule Span}
    (hr : r ∈ (parse a).rules) : (parse (a ++ b)).comment? r = (parse a).comment? r := by
  obtain ⟨ls, l, ms, hlexemes, hstart⟩ := exists_lexemes_of_rule hr
  have hmem : r ∈ (parse (a ++ b)).rules := by
    rw [rules_append h]
    exact List.mem_append_left _ hr
  have hboth : lexemes (a ++ b) = ls ++ l :: (ms ++ lexemes b) := by
    rw [h.lexemes_append, hlexemes, List.append_assoc, List.cons_append]
  rw [comment?_eq hmem, comment?_eq hr, hstart, Comments.leading?_eq hboth,
    Comments.leading?_eq hlexemes]

theorem comment?_append_right (h : EndsInSemicolon a) {b : Text} {r : Rule Span}
    (hr : r ∈ (parse b).rules) :
    (parse (a ++ b)).comment? (r.map (Span.shift a.size)) = (parse b).comment? r := by
  obtain ⟨ls, l, ms, hlexemes, hstart⟩ := exists_lexemes_of_rule hr
  obtain ⟨ts, t, hts, ht⟩ := h.tokens
  have hmem : r.map (Span.shift a.size) ∈ (parse (a ++ b)).rules := by
    rw [rules_append h]
    exact List.mem_append_right _ (List.mem_map_of_mem hr)
  have hboth : lexemes (a ++ b) = (lexemes a ++ ls) ++ l :: ms := by
    rw [h.lexemes_append, hlexemes, List.append_assoc]
  have hmoved : (r.map (Span.shift a.size)).mark.start = Text.size (spelled (lexemes a ++ ls)) := by
    rw [spelled_append, Text.size_append, size_spelled_lexemes, Nat.add_comm, ← hstart]
    rfl
  rw [comment?_eq hmem, comment?_eq hr, hstart, hmoved, Comments.leading?_eq hboth,
    Comments.leading?_eq hlexemes, tokensAt_append, size_spelled_lexemes, tokensAt_shift, hts,
    List.reverse_append, List.reverse_append, List.reverse_singleton, List.singleton_append,
    Comments.above?_append ht, ← List.map_reverse, Comments.above?_shift]
  -- the first token of a text does not close a comment
  intro u hu
  rw [List.getLast?_reverse, List.head?_map] at hu
  obtain ⟨v, hv, rfl⟩ := Option.map_eq_some_iff.mp hu
  refine (lexemes_begins b v.lexeme ?_).2
  rw [hlexemes, List.head?_append, ← map_lexeme_tokensAt 0 ls, List.head?_map, hv]
  rfl

/-- Where the text in front has no problems, those of both are those of the text behind. -/
theorem diagnostics_append (h : EndsInSemicolon a) (ha : (parse a).diagnostics = []) (b : Text) :
    (parse (a ++ b)).diagnostics = (parse b).diagnostics.map (Diagnostic.shift a.size) := by
  obtain ⟨hclosed, hclean⟩ := diagnostics_eq_nil_iff.mp ha
  have hcomments : Comments.unterminatedAll (tokensAt 0 (lexemes a)) = [] := by
    rw [← Comments.unterminatedAll_eq_nil_iff, tokenize_eq,
      Comments.unterminatedAll_append h.closed_tokensAt] at hclosed
    exact (List.append_eq_nil_iff.mp hclosed).1
  have hnotes : (Parser.sections (.point a.size) (significant a)).flatMap (·.notes) = [] :=
    List.flatMap_eq_nil_iff.mpr fun step hstep => (hclean step hstep).1
  have herrors : (Parser.sections (.point a.size) (significant a)).filterMap (·.error?) = [] :=
    List.filterMap_eq_nil_iff.mpr fun step hstep => (hclean step hstep).2
  -- the steps are those of both texts, and nothing comes of those through the first one
  have hsteps := Parser.sections_framed 0 ((significant b).map (Token.shift a.size)) (.point a.size)
    (.point (Text.size (a ++ b))) _ (significant a) (Nat.le_refl _)
    (Or.inr ⟨h.closed, fun step hstep => (hclean step hstep).2⟩)
  rw [Token.shift_zero, List.map_id, ← h.significant_append, point_append,
    Parser.sections_shift] at hsteps
  rw [diagnostics_eq, diagnostics_eq b, h.tokenize_append, point_append, hsteps,
    Comments.unterminatedAll_append h.closed_tokensAt, hcomments, Comments.unterminatedAll_shift,
    List.flatMap_append, Parser.notes_shift, hnotes, Parser.notes_shift, List.filterMap_append,
    Parser.errors_shift, herrors, Parser.errors_shift, ← Diagnostic.sort_shift, List.map_append,
    List.map_append]
  rfl

/-- **Recovery is local.**  A text behind another one that ends in a semicolon has the same
    rules as by itself, moved, with the same comments, and so does the text in front; and if
    that one has no syntax errors, those of both are those of the text behind, moved. -/
theorem halves_read_apart (h : EndsInSemicolon a) (b : Text) :
    (parse (a ++ b)).rules = (parse a).rules ++ (parse b).rules.map (Rule.map (Span.shift a.size)) ∧
      (∀ r ∈ (parse a).rules, (parse (a ++ b)).comment? r = (parse a).comment? r) ∧
      (∀ r ∈ (parse b).rules,
        (parse (a ++ b)).comment? (r.map (Span.shift a.size)) = (parse b).comment? r) ∧
      ((parse a).diagnostics = [] →
        (parse (a ++ b)).diagnostics = (parse b).diagnostics.map (Diagnostic.shift a.size)) :=
  ⟨rules_append h b, fun _ => comment?_append_left h b, fun _ => comment?_append_right h,
    fun ha => diagnostics_append h ha b⟩

/-- A stray semicolon skips what is behind it up to the next one, and yet no rule is lost; and
    behind a text without syntax errors each problem is one of the text behind. -/
theorem halves_read_apart_broken :
    EndsInSemicolon "x = 'a' ; ;".toList ∧ EndsInSemicolon "x = 'a' ;".toList ∧
      (parse ("x = 'a' ; ;".toList ++ "y ) ; (* é *) z = x ;".toList)).rules
        = (parse "x = 'a' ; ;".toList).rules
          ++ (parse "y ) ; (* é *) z = x ;".toList).rules.map (Rule.map (Span.shift 11)) ∧
      (∀ r ∈ (parse "y ) ; (* é *) z = x ;".toList).rules,
        (parse ("x = 'a' ; ;".toList ++ "y ) ; (* é *) z = x ;".toList)).comment?
          (r.map (Span.shift 11)) = (parse "y ) ; (* é *) z = x ;".toList).comment? r) ∧
      (parse "x = 'a' ;".toList).diagnostics = [] ∧
      (parse ("x = 'a' ;".toList ++ "y ) ; (* é *) z = x ;".toList)).diagnostics
        = (parse "y ) ; (* é *) z = x ;".toList).diagnostics.map (Diagnostic.shift 9) := by
  have hstray : EndsInSemicolon "x = 'a' ; ;".toList :=
    ⟨(tokenize "x = 'a' ; ;".toList).take 8, ⟨.semicolon, ⟨10, 11⟩, [';']⟩, by decide +kernel, rfl⟩
  have hrule : EndsInSemicolon "x = 'a' ;".toList :=
    ⟨(tokenize "x = 'a' ;".toList).take 6, ⟨.semicolon, ⟨8, 9⟩, [';']⟩, by decide +kernel, rfl⟩
  have hclean : (parse "x = 'a' ;".toList).diagnostics = [] := by
    decide +kernel
  obtain ⟨hrules, -, hcomments, -⟩ := halves_read_apart hstray "y ) ; (* é *) z = x ;".toList
  obtain ⟨-, -, -, hproblems⟩ := halves_read_apart hrule "y ) ; (* é *) z = x ;".toList
  exact ⟨hstray, hrule, hrules, hcomments, hclean, hproblems hclean⟩

end Grammar

end EbnfKit
