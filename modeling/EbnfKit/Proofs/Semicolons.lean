import EbnfKit.Proofs.Entries

/-! # Semicolons — what a missing one costs

    Where a blank stands in place of the semicolon of a rule, the tokens are those of the text
    without that semicolon, each where it was.  The body of the rule goes no further for that,
    because no expression goes on with a name:

      name = body name = body ;      an error at the second name, and then the second rule

    So there is one error, and only the rule without its semicolon is lost. -/

namespace EbnfKit

open Unicode

/-! ## A blank in place of a token -/

/-- A significant token is a piece of its text, and the others are in front of it or behind. -/
theorem Layout.exists_of_token {s : Text} {ps : List Piece} (hs : Layout s ps)
    {ts us : List Token} {t : Token} (h : significant s = ts ++ t :: us) :
    ∃ qs rest, ps = qs ++ .lexeme t.lexeme :: rest ∧ Piece.tokensAt 0 qs = ts ∧
      t.span.start = Text.size (qs.flatMap Piece.text) ∧
      t.span.stop = t.span.start + Text.size t.text ∧ Piece.tokensAt t.span.stop rest = us := by
  obtain ⟨qs, rest, rfl, hqs, hrest⟩ :=
    Piece.exists_of_tokensAt_append hs.valid (hs.tokens.trans h)
  obtain ⟨-, hvalid⟩ := List.forall_mem_append.mp hs.valid
  obtain ⟨gap, l, rest, rfl, hgap, rfl, hstart, hstop, hus⟩ :=
    Piece.exists_of_tokensAt_cons hvalid hrest
  refine ⟨qs ++ gap, rest, (List.append_assoc ..).symm, ?_, ?_, hstop, ?_⟩
  · rw [Piece.tokensAt_append, hqs, Piece.tokensAt_trivia hgap, List.append_nil]
  · rw [hstart, List.flatMap_append, Text.size_append, Nat.zero_add]
  · rw [hstop, hstart]
    exact hus

/-- **A blank between pieces** adds no token, and leaves nothing open. -/
theorem significant_blank {qs rest : List Piece} (hqs : ∀ p ∈ qs, p.Valid)
    (hrest : ∀ p ∈ rest, p.Valid) (hloose : Loose (qs.filterMap Piece.lexeme?))
    (hloose' : Loose (rest.filterMap Piece.lexeme?)) {c : Char} (hc : isWhiteSpace c = true) :
    significant (qs.flatMap Piece.text ++ c :: rest.flatMap Piece.text)
        = Piece.tokensAt 0 qs
          ++ Piece.tokensAt (Text.size (qs.flatMap Piece.text) + c.utf8Size) rest ∧
      Finished (qs.flatMap Piece.text ++ c :: rest.flatMap Piece.text) := by
  have hblank : ∀ d ∈ (c :: rest.flatMap Piece.text).head?, isWhiteSpace d = true := by
    intro d hd
    rwa [← Option.some.inj hd]
  have hpieces : ∀ p ∈ Piece.blank c :: rest, p.Valid := List.forall_mem_cons.mpr ⟨hc, hrest⟩
  have hfinished : Finished (c :: rest.flatMap Piece.text) :=
    (Writes.lexemes ⟨Piece.blank c :: rest, hpieces, rfl, rfl⟩ hloose').2
  obtain ⟨htokens, hopen⟩ := Piece.tokensAt_spread hqs hloose hblank
  refine ⟨?_, hopen hfinished⟩
  rw [significant_eq]
  refine (htokens 0).trans (congrArg (Piece.tokensAt 0 qs ++ ·) ?_)
  rw [Nat.zero_add]
  exact (@Piece.tokensAt_eq (Piece.blank c :: rest) hpieces hloose' _).symm

/-- **A semicolon gives way to a blank**: the other tokens are as they were. -/
theorem exists_blanked {s : Text} (h : (Grammar.parse s).diagnostics = []) {ts us : List Token}
    {t : Token} (hsplit : significant s = ts ++ t :: us) (hk : t.kind = .semicolon) :
    ∃ x y, s = x ++ ';' :: y ∧ Text.size x + 1 = t.span.stop ∧
      significant (x ++ ' ' :: y) = ts ++ us ∧ Finished (x ++ ' ' :: y) := by
  obtain ⟨ps, hs⟩ := (Grammar.finished_of_clean h).layout
  have hmem : t ∈ significant s := by
    rw [hsplit]
    exact List.mem_append_right ts List.mem_cons_self
  have htext : t.text = [';'] := congrArg Lexeme.text
    (Lexeme.eq_sign (lexical_of_significant hmem).1 (by decide : ';' ∈ signs) hk.symm)
  have hloose := Grammar.loose_of_clean h hs
  obtain ⟨qs, rest, rfl, hqs, hstart, hstop, hrest⟩ := hs.exists_of_token hsplit
  obtain ⟨hvalid, hvalid'⟩ := List.forall_mem_append.mp hs.valid
  rw [List.filterMap_append] at hloose
  rw [htext, hstart] at hstop
  obtain ⟨hsignificant, hfinished⟩ := significant_blank hvalid (List.forall_mem_cons.mp hvalid').2
    (hloose.left (Piece.lexical_of_valid hvalid)) hloose.right.2
    (by decide : isWhiteSpace ' ' = true)
  refine ⟨qs.flatMap Piece.text, rest.flatMap Piece.text, ?_, hstop.symm, ?_, hfinished⟩
  · rw [← hs.text, List.flatMap_append, List.flatMap_cons]
    show _ ++ (t.text ++ _) = _
    rw [htext]
    rfl
  · rw [hsignificant, hqs]
    rw [hstop] at hrest
    exact congrArg (ts ++ ·) hrest

/-! ## Steps -/

/-- Rules in front derive from tokens in front. -/
theorem Rule.DerivesAll.split {τ α : Type} {d : Reading τ α} {front back : List (Rule α)} :
    ∀ {ts : List τ}, Rule.DerivesAll d ts (front ++ back) →
      ∃ us vs, ts = us ++ vs ∧ Rule.DerivesAll d us front ∧ Rule.DerivesAll d vs back := by
  induction front with
  | nil => exact fun {ts} h => ⟨[], ts, rfl, .nil, h⟩
  | cons r front ih =>
      intro ts h
      cases h with
      | @cons used _ rest _ hr hlater =>
          obtain ⟨us, vs, rfl, hfront, hback⟩ := ih hlater
          exact ⟨used ++ us, vs, (List.append_assoc ..).symm, .cons hr hfront, hback⟩

namespace Parser

open Reader

variable {ts us vs : List Token} {rules front back : List (Rule Span)}

/-- A rule up to its semicolon, as it is read without any problem. -/
structure ReadsUpTo (ts : List Token) : Prop where
  begins : ∃ name equals body e, ts = name :: equals :: body ∧ name.kind = .identifier ∧
    equals.kind = .equals ∧ ExpressionFits maxNesting body e
  scanned : Scanned ts
  closed : openNotes ts = []

/-- Where a rule ends there is a semicolon, with the other rules in front of it and behind. -/
theorem ReadsAs.split {r : Rule Span} (h : ReadsAs ts (front ++ r :: back)) :
    ∃ us used semicolon vs, ts = (us ++ used) ++ semicolon :: vs ∧ semicolon.kind = .semicolon ∧
      semicolon.span.stop = r.mark.stop ∧ ReadsAs us front ∧ ReadsUpTo used ∧ ReadsAs vs back := by
  obtain ⟨⟨hderives, hnesting⟩, hscanned, hcounts, hclosed⟩ := h
  obtain ⟨us, rest, rfl, hfront, hrest⟩ := hderives.split
  obtain ⟨hnesting₁, hnesting⟩ := List.forall_mem_append.mp hnesting
  obtain ⟨hnesting₂, hnesting₃⟩ := List.forall_mem_cons.mp hnesting
  obtain ⟨hcounts₁, hcounts⟩ := countsFit_append.mp hcounts
  rw [openNotes_append, List.append_eq_nil_iff] at hclosed
  obtain ⟨hclosed₁, hclosed⟩ := hclosed
  cases hrest with
  | @cons used _ vs _ hr hback =>
      obtain ⟨hcounts₂, hcounts₃⟩ := countsFit_append.mp hcounts
      rw [openNotes_append, List.append_eq_nil_iff] at hclosed
      have hmark := hr.mark_eq
      cases hr with
      | @mk x s body c nm e m hx hs he hc _ _ =>
          obtain ⟨-, hfits⟩ := rule_frame hx hs hc body
          have hscanned₂ := hscanned.right.left
          have hclosed₂ : openNotes (x :: s :: body) = [] := by
            have hnotes := hclosed.1
            rw [openNotes_append, List.append_eq_nil_iff] at hnotes
            exact hnotes.1
          refine ⟨us, x :: s :: body, c, vs, by simp, hc, ?_, ⟨⟨hfront, hnesting₁⟩, hscanned.left,
            hcounts₁, hclosed₁⟩, ⟨⟨x, s, body, e, rfl, hx, hs, he, hnesting₂, hfits.mp hcounts₂⟩,
            hscanned₂.left, hclosed₂⟩, ⟨hback, hnesting₃⟩, hscanned.right.right, hcounts₃, hclosed.2⟩
          have hstop := congrArg Span.stop hmark
          rw [Span.over_concat (List.cons_ne_nil _ _)] at hstop
          exact hstop.symm

/-- What is said where a semicolon is missing in front of the given rules. -/
def missingSemicolon (stop : Span) : List (Rule Span) → Diagnostic
  | [] => .syntaxError stop "expected `;`, found end of input"
  | r :: _ => .syntaxError r.nameMark s!"expected `;`, found rule name `{String.ofList r.name}`"

/-- Rules begin with a name and an equals sign, unless there are none. -/
theorem begins_of_derives (h : Rule.DerivesAll .placed vs rules) : (vs = [] ∧ rules = []) ∨
    ∃ x s ws r rs, vs = x :: s :: ws ∧ rules = r :: rs ∧ x.kind = .identifier ∧
      s.kind = .equals ∧ r.name = x.text ∧ r.nameMark = x.span := by
  cases h with
  | nil => exact Or.inl ⟨rfl, rfl⟩
  | cons hr _ =>
      cases hr with
      | mk hx hs _ _ hnm _ => exact Or.inr ⟨_, _, _, _, _, rfl, rfl, hx, hs, rfl, hnm⟩

/-- Rules that come where a semicolon should are left as they are. -/
theorem expect_semicolon_of_derives (stop : Span) (h : Rule.DerivesAll .placed vs rules) :
    (∀ t ∈ vs.head?, t.kind = .identifier) ∧ skipped vs = [] ∧
      (expect .semicolon : Reader Token) stop vs
        = ⟨[], [], .error (missingSemicolon stop rules), vs⟩ := by
  rcases begins_of_derives h with ⟨rfl, rfl⟩ | ⟨x, s, ws, r, rs, rfl, rfl, hx, hs, hname, hmark⟩
  · exact ⟨fun _ ht => (nomatch ht), rfl, rfl⟩
  · have hhead : ∀ t ∈ (x :: s :: ws).head?, t.kind = .identifier := by
      intro t ht
      rwa [← Option.some.inj ht]
    refine ⟨hhead, ?_, ?_⟩
    · rw [skipped, startsRule, Token.is, Token.is, Token.is, Token.is, hx, hs]
      rfl
    · have hfound : found (some x) = "rule name `" ++ String.ofList x.text ++ "`" := by
        rw [found, hx]
        rfl
      have hliteral : "expected " ++ "`;`" ++ ", found " ++ "rule name `"
          = "expected `;`, found rule name `" := by decide
      have hwords : "expected " ++ "`;`" ++ ", found " ++ found (some x)
          = "expected `;`, found rule name `" ++ String.ofList x.text ++ "`" := by
        rw [hfound, ← hliteral, ← String.append_assoc, ← String.append_assoc]
      rw [expect_of_notNext fun t ht => by rw [hhead t ht]; decide, missingSemicolon, hname, hmark]
      exact congrArg (fun words => Reply.mk [] [] (.error (.syntaxError x.span words)) _) hwords

/-- A rule without its semicolon is given up, and with it no token of the next one. -/
theorem ReadsUpTo.sectionAt_append (h : ReadsUpTo us) (stop : Span)
    (hvs : Rule.DerivesAll .placed vs rules) :
    ∃ backward, sectionAt stop (us ++ vs)
      = ⟨us, [], backward, .error (missingSemicolon stop rules)⟩ := by
  obtain ⟨⟨name, equals, body, e, rfl, hname, hequals, he⟩, hscanned, hclosed⟩ := h
  obtain ⟨hhead, hskipped, hsemicolon⟩ := expect_semicolon_of_derives stop hvs
  rw [openNotes_cons (by rw [hname]; decide), openNotes_cons (by rw [hequals]; decide)] at hclosed
  obtain ⟨backward, hbody⟩ := expression_complete maxNesting stop body e vs hscanned.tail.tail he
    fun t ht => by
      rw [hhead t ht]
      decide
  rw [hclosed] at hbody
  have hrule : rule stop (name :: equals :: body ++ vs)
      = ⟨[], backward ++ [], .error (missingSemicolon stop rules), vs⟩ := by
    rw [rule, List.cons_append, List.cons_append, bind_ok (expect_of_eq hname stop _),
      bind_ok (expect_of_eq hequals stop _), bind_ok hbody, bind_error hsemicolon]
    rfl
  have hgiven : givenUp (name :: equals :: body ++ vs) vs = [] := by
    rw [givenUp, if_pos, hskipped]
    simp only [List.cons_append, List.length_cons, List.length_append]
    omega
  rw [sectionAt_of_error hrule, take_taken rfl, hgiven]
  exact ⟨_, congrArg (fun ts => Section.mk ts _ _ _) (List.append_nil _)⟩

/-- **Only the rule without its semicolon is lost**, and there is one error. -/
theorem sections_unclosed {used : List Token} (hfront : ReadsAs us front) (hused : ReadsUpTo used)
    (hback : ReadsAs vs back) (stop : Span) :
    (sections stop ((us ++ used) ++ vs)).flatMap (·.notes) = [] ∧
      (sections stop ((us ++ used) ++ vs)).filterMap (·.error?) = [missingSemicolon stop back] ∧
      (sections stop ((us ++ used) ++ vs)).filterMap (·.rule?) = front ++ back := by
  obtain ⟨steps, hsteps, hrules, hclean⟩ := hfront.sections_append stop (used ++ vs)
  obtain ⟨steps', hsteps', hrules', hclean'⟩ := hback.sections_append stop []
  obtain ⟨backward, hstep⟩ := hused.sectionAt_append stop hback.accepted.1
  rw [List.append_nil, show sections stop [] = [] from rfl, List.append_nil] at hsteps'
  have hne : used ++ vs ≠ [] := by
    obtain ⟨x, s, body, e, rfl, -⟩ := hused.begins
    exact List.cons_ne_nil _ _
  rw [List.append_assoc, hsteps, sections_eq hne (by rw [hstep]), hstep, hsteps']
  refine ⟨?_, ?_, ?_⟩
  · rw [List.flatMap_append, List.flatMap_cons,
      List.flatMap_eq_nil_iff.mpr fun step hmem => (hclean step hmem).1,
      List.flatMap_eq_nil_iff.mpr fun step hmem => (hclean' step hmem).1]
    rfl
  · rw [List.filterMap_append, List.filterMap_cons_some (by rfl),
      List.filterMap_eq_nil_iff.mpr fun step hmem => (hclean step hmem).2,
      List.filterMap_eq_nil_iff.mpr fun step hmem => (hclean' step hmem).2]
    rfl
  · rw [List.filterMap_append, List.filterMap_cons_none (by rfl), hrules, hrules']

end Parser

/-! ## Texts -/

namespace Grammar

/-- **A missing semicolon costs one rule.**  With a blank in place of the semicolon of a rule there
    is one error, at the name of the next rule or at the end, and all other rules are as before. -/
theorem missing_semicolon_costs_rule {s : Text} (h : (parse s).diagnostics = [])
    {front back : List (Rule Span)} {r : Rule Span} (hr : (parse s).rules = front ++ r :: back) :
    ∃ x y, s = x ++ ';' :: y ∧ Text.size x + 1 = r.mark.stop ∧
      (parse (x ++ ' ' :: y)).diagnostics = [Parser.missingSemicolon (.point s.size) back] ∧
      (parse (x ++ ' ' :: y)).rules = front ++ back := by
  obtain ⟨haccepted, hcounts, hstrings, -⟩ := accepted_of_clean h
  rw [hr] at haccepted
  have hreads : Parser.ReadsAs (significant s) (front ++ r :: back) :=
    ⟨haccepted, significant_scanned s, hcounts, openNotes_eq_nil_iff.mpr hstrings⟩
  obtain ⟨us, used, semicolon, vs, hsplit, hk, hstop, hfront, hused, hback⟩ := hreads.split
  obtain ⟨x, y, rfl, hsize, hsignificant, hfinished⟩ := exists_blanked h hsplit hk
  obtain ⟨hnotes, herrors, hrules⟩ :=
    Parser.sections_unclosed hfront hused hback (.point (Text.size (x ++ ' ' :: y)))
  have hcomments : Comments.unterminatedAll (tokenize (x ++ ' ' :: y)) = [] :=
    Comments.unterminatedAll_eq_nil_iff.mpr hfinished.commentsClosed_tokenize
  have hsame : Text.size (x ++ ' ' :: y) = Text.size (x ++ ';' :: y) := by
    rw [Text.size_append, Text.size_append]
    rfl
  refine ⟨x, y, rfl, hsize.trans hstop, ?_, ?_⟩
  · rw [diagnostics_eq, hsignificant, hcomments, hnotes, herrors, hsame]
    rfl
  · rw [rules_eq, hsignificant, hrules]

/-- The semicolon of the rule in the middle. -/
theorem missing_semicolon_costs_rule_middle : ∃ s x y front r back,
    s = "a = b;b = 'y' ;c = a;".toList ∧ (parse s).diagnostics = [] ∧
      (parse s).rules = front ++ r :: back ∧ front.map Rule.mark = [⟨0, 6⟩] ∧ r.mark = ⟨6, 15⟩ ∧
      back.map Rule.mark = [⟨15, 21⟩] ∧ s = x ++ ';' :: y ∧ Text.size x + 1 = 15 ∧
      (parse (x ++ ' ' :: y)).diagnostics
        = [.syntaxError ⟨15, 16⟩ "expected `;`, found rule name `c`"] ∧
      (parse (x ++ ' ' :: y)).rules = front ++ back := by
  have hclean : (parse "a = b;b = 'y' ;c = a;".toList).diagnostics = [] := by decide +kernel
  have hrules : (parse "a = b;b = 'y' ;c = a;".toList).rules.map
      (fun r => (r.name, r.nameMark, r.mark))
      = [(['a'], ⟨0, 1⟩, ⟨0, 6⟩), (['b'], ⟨6, 7⟩, ⟨6, 15⟩), (['c'], ⟨15, 16⟩, ⟨15, 21⟩)] := by
    decide +kernel
  obtain ⟨a, rest, hr, ha, hrest⟩ := List.map_eq_cons_iff.mp hrules
  obtain ⟨b, rest, rfl, hb, hrest⟩ := List.map_eq_cons_iff.mp hrest
  obtain ⟨c, rfl, hc⟩ := List.map_eq_singleton_iff.mp hrest
  obtain ⟨x, y, hs, hsize, hdiagnostics, hothers⟩ :=
    @missing_semicolon_costs_rule _ hclean [a] [c] b hr
  have hamark : a.mark = ⟨0, 6⟩ := congrArg (·.2.2) ha
  have hbmark : b.mark = ⟨6, 15⟩ := congrArg (·.2.2) hb
  have hcmark : c.mark = ⟨15, 21⟩ := congrArg (·.2.2) hc
  have hcname : c.name = ['c'] := congrArg (·.1) hc
  have hcat : c.nameMark = ⟨15, 16⟩ := congrArg (·.2.1) hc
  rw [Parser.missingSemicolon, hcname, hcat] at hdiagnostics
  rw [hbmark] at hsize
  exact ⟨_, x, y, [a], b, [c], rfl, hclean, hr, congrArg (fun m => [m]) hamark, hbmark,
    congrArg (fun m => [m]) hcmark, hs, hsize, hdiagnostics.trans (by decide), hothers⟩

end Grammar

end EbnfKit
