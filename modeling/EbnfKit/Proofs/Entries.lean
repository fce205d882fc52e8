import EbnfKit.Proofs.Above

/-! # Entries — a text as rules with what is above them

    A text without syntax errors is a list of entries and trivia behind them.  An entry is a
    rule with the trivia above it, and the rule begins with its name and ends in a
    semicolon.  The other way round, a text put together from entries is read as their
    rules, each with the comment that shows above it:

      x = gap name ... ; gap name ... ; ... tail   implies
          parse x has these rules, and the comment of each is directly above in its gap -/

namespace EbnfKit

/-! ## Tokens and pieces -/

namespace Piece

/-- The first token is the first piece that is no trivia. -/
theorem exists_of_tokensAt_cons {offset : Nat} {ps : List Piece} (hps : ∀ p ∈ ps, p.Valid)
    {t : Token} {ts : List Token} (h : tokensAt offset ps = t :: ts) :
    ∃ gap l rest, ps = gap ++ lexeme l :: rest ∧ Trivia gap ∧ l = t.lexeme ∧
      t.span.start = offset + Text.size (gap.flatMap text) ∧
      t.span.stop = t.span.start + Text.size l.text ∧
      tokensAt (offset + Text.size (gap.flatMap text) + Text.size l.text) rest = ts := by
  induction ps generalizing offset with
  | nil => cases h
  | cons p ps ih =>
      obtain ⟨hp, hrest⟩ := List.forall_mem_cons.mp hps
      have hskip : p.lexeme? = none → ∃ gap l rest, p :: ps = gap ++ lexeme l :: rest ∧
          Trivia gap ∧ l = t.lexeme ∧ t.span.start = offset + Text.size (gap.flatMap text) ∧
          t.span.stop = t.span.start + Text.size l.text ∧
          tokensAt (offset + Text.size (gap.flatMap text) + Text.size l.text) rest = ts := by
        intro hnone
        rw [tokensAt, hnone] at h
        obtain ⟨gap, l, rest, rfl, hgap, hl, hstart, hstop, hlater⟩ := ih hrest h
        have hsize : offset + Text.size ((p :: gap).flatMap text)
            = offset + Text.size p.text + Text.size (gap.flatMap text) := by
          rw [List.flatMap_cons, Text.size_append, Nat.add_assoc]
        have hone : Trivia [p] :=
          ⟨List.forall_mem_singleton.mpr hp, by rw [List.filterMap_cons_none hnone]; rfl⟩
        exact ⟨p :: gap, l, rest, rfl, hone.append hgap, hl, hsize ▸ hstart, hstop, hsize ▸ hlater⟩
      cases p with
      | lexeme l =>
          obtain ⟨rfl, hlater⟩ := List.cons.inj h
          exact ⟨[], l, ps, rfl, ⟨List.forall_mem_nil _, rfl⟩, rfl, rfl, rfl, hlater⟩
      | blank c => exact hskip rfl
      | comment body => exact hskip rfl

/-- Where the tokens are cut in two, the pieces are. -/
theorem exists_of_tokensAt_append {ps : List Piece} {us vs : List Token} :
    ∀ {offset : Nat}, (∀ p ∈ ps, p.Valid) → tokensAt offset ps = us ++ vs →
      ∃ qs rest, ps = qs ++ rest ∧ tokensAt offset qs = us ∧
        tokensAt (offset + Text.size (qs.flatMap text)) rest = vs := by
  induction us generalizing ps with
  | nil => exact fun {offset} _ h => ⟨[], ps, rfl, rfl, h⟩
  | cons u us ih =>
      intro offset hps h
      obtain ⟨gap, l, rest, rfl, -, -, -, -, hlater⟩ := exists_of_tokensAt_cons hps h
      obtain ⟨-, hrest⟩ := List.forall_mem_cons.mp (List.forall_mem_append.mp hps).2
      obtain ⟨qs, rest, rfl, hqs, hvs⟩ := ih hrest hlater
      have hsplit : gap ++ lexeme l :: (qs ++ rest) = (gap ++ lexeme l :: qs) ++ rest := by
        rw [List.append_assoc, List.cons_append]
      have hsize : offset + Text.size ((gap ++ lexeme l :: qs).flatMap text)
          = offset + Text.size (gap.flatMap text) + Text.size l.text
            + Text.size (qs.flatMap text) := by
        rw [List.flatMap_append, List.flatMap_cons, Text.size_append, Text.size_append,
          ← Nat.add_assoc, ← Nat.add_assoc]
        rfl
      rw [hsplit, tokensAt_append, hsize, hvs] at h
      exact ⟨_, rest, hsplit, List.append_cancel_right h, hsize ▸ hvs⟩

end Piece

/-! ## Entries -/

/-- The pieces of a rule: its name, its semicolon, and what is in between. -/
def Piece.ofRule (name : Lexeme) (inner : List Piece) (semicolon : Lexeme) : List Piece :=
  .lexeme name :: (inner ++ [.lexeme semicolon])

/-- A rule with the trivia above it: its name, its semicolon, and what is in between. -/
structure Entry where
  gap : List Piece
  name : Lexeme
  inner : List Piece
  semicolon : Lexeme
  rule : Rule Unit

namespace Entry

/-- The pieces of the rule. -/
def below (e : Entry) : List Piece :=
  Piece.ofRule e.name e.inner e.semicolon

/-- The pieces of the entry. -/
def pieces (e : Entry) : List Piece :=
  e.gap ++ e.below

/-- The rule is what its pieces say, and there is nothing but trivia above it. -/
structure Sound (e : Entry) : Prop where
  gap : Piece.Trivia e.gap
  semicolon : e.semicolon.kind = .semicolon
  derives : Rule.Derives .bare (e.below.filterMap Piece.lexeme?) e.rule

end Entry

/-- The rule stands in these pieces, behind the offset and trivia. -/
structure Rule.StandsBehind (r : Rule Span) (offset : Nat) (gap : List Piece) (name : Lexeme)
    (inner : List Piece) (semicolon : Lexeme) : Prop where
  trivia : Piece.Trivia gap
  ends : semicolon.kind = .semicolon
  start : r.mark.start = offset + Text.size (gap.flatMap Piece.text)
  stop : r.mark.stop
    = r.mark.start + Text.size ((Piece.ofRule name inner semicolon).flatMap Piece.text)

/-- The tokens of a rule are those of some pieces behind trivia. -/
theorem Rule.Derives.split {offset : Nat} {ps : List Piece} (hps : ∀ p ∈ ps, p.Valid)
    {us vs : List Token} {r : Rule Span} (h : Rule.Derives .placed us r)
    (htokens : Piece.tokensAt offset ps = us ++ vs) :
    ∃ gap name inner semicolon rest,
      ps = gap ++ (Piece.ofRule name inner semicolon ++ rest) ∧
      r.StandsBehind offset gap name inner semicolon ∧
      Piece.tokensAt r.mark.start (Piece.ofRule name inner semicolon) = us ∧
      Piece.tokensAt r.mark.stop rest = vs := by
  have hmark := h.mark_eq
  cases h with
  | @mk x e ws c _ _ _ _ _ _ hc _ _ =>
      have hfirst : Piece.tokensAt offset ps = x :: ((e :: ws) ++ (c :: vs)) := by
        rw [htokens]
        simp
      obtain ⟨gap, name, rest, rfl, hgap, -, hstart, -, hlater⟩ :=
        Piece.exists_of_tokensAt_cons hps hfirst
      obtain ⟨-, hrest⟩ := List.forall_mem_cons.mp (List.forall_mem_append.mp hps).2
      obtain ⟨inner, rest, rfl, -, hlater⟩ := Piece.exists_of_tokensAt_append hrest hlater
      obtain ⟨blanks, semicolon, rest, rfl, -, hsemicolon, hlast, hstop, hlater⟩ :=
        Piece.exists_of_tokensAt_cons (List.forall_mem_append.mp hrest).2 hlater
      -- the pieces up to the semicolon, with the trivia in front of it
      have hsplit : gap ++ Piece.lexeme name :: (inner ++ (blanks ++ Piece.lexeme semicolon :: rest))
          = gap ++ (Piece.ofRule name (inner ++ blanks) semicolon ++ rest) := by
        simp [Piece.ofRule]
      have hover : Span.over (x :: e :: ws ++ [c]) = ⟨x.span.start, c.span.stop⟩ :=
        @Span.over_append (x :: e :: ws) [c] (List.cons_ne_nil _ _) (List.cons_ne_nil _ _)
      simp only at hmark
      rw [hover] at hmark
      have hsize : c.span.stop = x.span.start
          + Text.size ((Piece.ofRule name (inner ++ blanks) semicolon).flatMap Piece.text) := by
        rw [hstop, hlast, hstart]
        simp only [Piece.ofRule, List.flatMap_cons, List.flatMap_append, List.flatMap_nil, List.append_nil,
          Text.size_append, Piece.text]
        omega
      have hback : Piece.tokensAt c.span.stop rest = vs := by
        rw [hstop, hlast]
        exact hlater
      subst hmark
      refine ⟨gap, name, inner ++ blanks, semicolon, rest, hsplit, ⟨hgap, ?_, hstart, hsize⟩, ?_,
        hback⟩
      · rw [hsemicolon]
        exact hc
      · rw [hsplit, Piece.tokensAt_append, Piece.tokensAt_append, ← hstart, ← hsize, hback] at htokens
        have hnone : Piece.tokensAt offset gap = [] := by
          rw [← List.map_eq_nil_iff, Piece.map_lexeme_tokensAt, hgap.2]
        rw [hnone, List.nil_append] at htokens
        exact List.append_cancel_right htokens

/-! ## Reading entries -/

theorem Piece.tokensAt_trivia {ps : List Piece} (h : Trivia ps) (offset : Nat) :
    tokensAt offset ps = [] := by
  rw [← List.map_eq_nil_iff, map_lexeme_tokensAt, h.2]

/-- The tokens of an entry derive its rule from where the rule starts. -/
theorem Entry.Sound.derives_placed {e : Entry} (h : e.Sound) (offset : Nat) :
    ∃ r : Rule Span, Rule.Derives .placed (Piece.tokensAt offset e.pieces) r ∧ r.shape = e.rule ∧
      r.mark.start = offset + Text.size (e.gap.flatMap Piece.text) := by
  rw [Entry.pieces, Piece.tokensAt_append, Piece.tokensAt_trivia h.gap, List.nil_append]
  have hmap : (Piece.tokensAt (offset + Text.size (e.gap.flatMap Piece.text)) e.below).map
      Reading.placed.lexeme = (e.below.filterMap Piece.lexeme?).map Reading.bare.lexeme :=
    (Piece.map_lexeme_tokensAt _ _).trans (List.map_id _).symm
  obtain ⟨r, hr, hshape⟩ := h.derives.transport placed_marks hmap
  refine ⟨r, hr, hshape.trans (Rule.shape_unit e.rule), ?_⟩
  rw [hr.mark_eq]
  rfl

/-- A rule ends in its semicolon. -/
theorem Piece.shut_ofRule {name semicolon : Lexeme} (h : semicolon.kind = .semicolon)
    (front inner : List Piece) : Shut (front ++ ofRule name inner semicolon) := by
  intro p hp
  rw [ofRule, ← List.cons_append, ← List.append_assoc, List.getLast?_concat] at hp
  exact ⟨semicolon, (Option.some.inj hp).symm, h⟩

theorem Entry.Sound.shut {e : Entry} (h : e.Sound) (front : List Piece) :
    Piece.Shut (front ++ e.pieces) := by
  rw [Entry.pieces, ← List.append_assoc]
  exact Piece.shut_ofRule h.semicolon _ _

namespace Grammar

variable {x : Text} {tail : List Piece}

/-- Entries behind a semicolon derive their rules, with their comments, by induction on the
    entries. -/
theorem entries_derived (htail : Piece.Trivia tail) : ∀ (es : List Entry) (front : List Piece),
    Piece.Shut front → (∀ e ∈ es, e.Sound) →
      Layout x (front ++ (es.flatMap Entry.pieces ++ tail)) →
      Loose ((front ++ (es.flatMap Entry.pieces ++ tail)).filterMap Piece.lexeme?) →
      ∃ rs, Rule.DerivesAll .placed (Piece.tokensAt (Text.size (front.flatMap Piece.text))
          (es.flatMap Entry.pieces ++ tail)) rs ∧
        List.Forall₂ (fun e r => r.shape = e.rule ∧ (r ∈ (parse x).rules →
          (parse x).comment? r = directlyAbove (e.gap.flatMap Piece.text))) es rs := by
  intro es
  induction es with
  | nil =>
      intro front _ _ _ _
      refine ⟨[], ?_, .nil⟩
      rw [List.flatMap_nil, List.nil_append, Piece.tokensAt_trivia htail]
      exact .nil
  | cons e es ih =>
      intro front hshut hes hlayout hloose
      obtain ⟨he, hrest⟩ := List.forall_mem_cons.mp hes
      have hsplit : front ++ ((e :: es).flatMap Entry.pieces ++ tail)
          = (front ++ e.pieces) ++ (es.flatMap Entry.pieces ++ tail) := by
        rw [List.flatMap_cons, List.append_assoc, List.append_assoc]
      obtain ⟨r, hr, hshape, hstart⟩ := he.derives_placed (Text.size (front.flatMap Piece.text))
      obtain ⟨rs, hrs, hall⟩ := ih (front ++ e.pieces) (he.shut front) hrest (hsplit ▸ hlayout)
        (hsplit ▸ hloose)
      refine ⟨r :: rs, ?_, .cons ⟨hshape, fun hmem => ?_⟩ hall⟩
      · rw [List.flatMap_cons, List.append_assoc, Piece.tokensAt_append]
        rw [List.flatMap_append, Text.size_append] at hrs
        exact .cons hr hrs
      · have hbelow : front ++ ((e :: es).flatMap Entry.pieces ++ tail)
            = front ++ (e.gap ++ Piece.lexeme e.name :: (e.inner ++ [Piece.lexeme e.semicolon]
              ++ (es.flatMap Entry.pieces ++ tail))) := by
          simp [Entry.pieces, Entry.below, Piece.ofRule]
        rw [hbelow] at hlayout hloose
        refine comment?_eq_directlyAbove hlayout hloose hshut he.gap hmem ?_
        rw [hstart, List.flatMap_append, Text.size_append]

/-- **Entries are read as they stand**: where a text put together from entries has no syntax
    errors, its rules are theirs, and each has the comment that shows above it. -/
theorem entries_read {es : List Entry} (hes : ∀ e ∈ es, e.Sound) (htail : Piece.Trivia tail)
    (hlayout : Layout x (es.flatMap Entry.pieces ++ tail))
    (hloose : Loose ((es.flatMap Entry.pieces ++ tail).filterMap Piece.lexeme?))
    (hclean : (parse x).diagnostics = []) :
    List.Forall₂ (fun e r => r.shape = e.rule ∧
      (parse x).comment? r = directlyAbove (e.gap.flatMap Piece.text)) es (parse x).rules := by
  obtain ⟨rs, hrs, hall⟩ := entries_derived htail es [] (fun _ hp => nomatch hp) hes hlayout hloose
  have hsame : rs = (parse x).rules := by
    refine rules_unique hclean ?_
    rw [← hlayout.tokens]
    exact hrs
  subst hsame
  refine List.forall₂_iff_get.mpr ?_
  obtain ⟨hlength, hget⟩ := List.forall₂_iff_get.mp hall
  exact ⟨hlength, fun i he hr =>
    ⟨(hget i he hr).1, (hget i he hr).2 (List.get_mem _ _)⟩⟩

end Grammar

end EbnfKit
