import EbnfKit.Proofs.Halves
import EbnfKit.Proofs.Seams

/-! # Above — the comment of a rule from the text above it

    Between two rules there are blanks and comments only, and whether a comment of a rule is
    found among them shows in that text alone:

      x (* c *) w   has   c, trimmed,   above its end,   if w is blank with one line break at
                                                         most
      w             has   nothing

    So it is the last comment that counts, and the white space behind it, whatever is in
    front. -/

namespace EbnfKit

open Unicode

/-- The comment directly above what follows the text. -/
def directlyAbove (x : Text) : Option Text :=
  Comments.above? (tokensAt 0 (lexemes x)).reverse

/-! ## Trivia -/

/-- Blanks and comments. -/
def Piece.Trivia (ps : List Piece) : Prop :=
  (∀ p ∈ ps, p.Valid) ∧ ps.filterMap Piece.lexeme? = []

namespace Piece

theorem Trivia.append {ps qs : List Piece} (hps : Trivia ps) (hqs : Trivia qs) :
    Trivia (ps ++ qs) :=
  ⟨List.forall_mem_append.mpr ⟨hps.1, hqs.1⟩, by rw [List.filterMap_append, hps.2, hqs.2]; rfl⟩

theorem Trivia.right {ps qs : List Piece} (h : Trivia (ps ++ qs)) : Trivia qs := by
  obtain ⟨hvalid, hnone⟩ := h
  rw [List.filterMap_append] at hnone
  exact ⟨(List.forall_mem_append.mp hvalid).2, (List.append_eq_nil_iff.mp hnone).2⟩

theorem trivia_blanks {w : Text} (h : ∀ c ∈ w, isWhiteSpace c = true) : Trivia (w.map blank) := by
  refine ⟨List.forall_mem_map.mpr h, List.filterMap_eq_nil_iff.mpr ?_⟩
  exact List.forall_mem_map.mpr fun _ _ => rfl

theorem Trivia.loose {ps : List Piece} (h : Trivia ps) : Loose (ps.filterMap lexeme?) := by
  rw [h.2]
  trivial

/-- Trivia are blanks, or end in a comment and blanks. -/
theorem Trivia.cases {ps : List Piece} (h : Trivia ps) :
    ∃ w : Text, (∀ c ∈ w, isWhiteSpace c = true) ∧
      (ps = w.map blank ∨ ∃ qs body, ps = qs ++ comment body :: w.map blank) := by
  induction ps with
  | nil => exact ⟨[], List.forall_mem_nil _, Or.inl rfl⟩
  | cons p ps ih =>
      have hp := h.1 p List.mem_cons_self
      obtain ⟨w, hw, hps | ⟨qs, body, hps⟩⟩ := ih (@Trivia.right [p] ps h)
      · cases p with
        | blank c =>
            exact ⟨c :: w, List.forall_mem_cons.mpr ⟨hp, hw⟩, Or.inl (by rw [hps]; rfl)⟩
        | comment body => exact ⟨w, hw, Or.inr ⟨[], body, by rw [hps]; rfl⟩⟩
        | lexeme l => cases h.2
      · exact ⟨w, hw, Or.inr ⟨p :: qs, body, by rw [hps]; rfl⟩⟩

end Piece

/-! ## What is found in trivia -/

theorem lexemes_onlyWhite {w : Text} (h : ∀ c ∈ w, isWhiteSpace c = true) :
    lexemes w = [] ∨ lexemes w = [⟨.whitespace, w⟩] := by
  by_cases hne : w = []
  · rw [hne, lexemes_nil]
    exact Or.inl rfl
  · have hwhite := @lexemes_white w [] hne h (fun _ hc => nomatch hc)
    rw [List.append_nil, lexemes_nil] at hwhite
    exact Or.inr hwhite

/-- Nothing is found above blanks at the beginning of a text. -/
theorem directlyAbove_blanks {w : Text} (h : ∀ c ∈ w, isWhiteSpace c = true) :
    directlyAbove w = none := by
  rw [directlyAbove]
  rcases lexemes_onlyWhite h with hw | hw
  · rw [hw]
    rfl
  · rw [hw]
    exact ite_self _

/-- The last comment is found if there is no blank line behind it. -/
theorem directlyAbove_comment {ps : List Piece} {body w : Text}
    (h : Piece.Trivia (ps ++ Piece.comment body :: w.map .blank)) :
    directlyAbove ((ps ++ Piece.comment body :: w.map .blank).flatMap Piece.text)
      = if w.count '\n' ≤ 1 then some body.trim else none := by
  obtain ⟨hps, hrest⟩ := List.forall_mem_append.mp h.1
  obtain ⟨hbody, hblanks⟩ := List.forall_mem_cons.mp hrest
  have hw : ∀ c ∈ w, isWhiteSpace c = true := List.forall_mem_map.mp hblanks
  have hseam : Unindented ((Piece.comment body :: w.map .blank).flatMap Piece.text) := by
    intro d hd
    rw [← Option.some.inj hd]
    decide
  have hlast : lexemes ((Piece.comment body :: w.map .blank).flatMap Piece.text)
      = (Lexeme.opened body ++ [⟨.commentEnd, Lexeme.closing⟩]) ++ lexemes w := by
    rw [List.flatMap_cons, Piece.text_blanks]
    exact lexemes_comment hbody w
  have hfound : ∀ (offset : Nat) (ts : List Token), Comments.above?
      ((tokensAt offset (Lexeme.opened body ++ [⟨.commentEnd, Lexeme.closing⟩])).reverse ++ ts)
        = some body.trim := by
    intro offset ts
    cases body <;> rfl
  rw [directlyAbove, List.flatMap_append, Piece.lexemes_seam hps hrest h.loose hseam, hlast,
    tokensAt_append, List.reverse_append, tokensAt_append, List.reverse_append, List.append_assoc]
  rcases lexemes_onlyWhite hw with hnone | hone
  · rw [hnone, lexemes_eq_nil_iff.mp hnone]
    exact hfound _ _
  · rw [hone, ← hfound]
    rfl

/-- What is found above the end of trivia is found there whatever trivia are in front. -/
theorem directlyAbove_of_some {w : Text} (hw : ∀ c ∈ w, isWhiteSpace c = true)
    {ps qs : List Piece} (hps : Piece.Trivia ps) (hqs : Piece.Trivia qs) {c : Text}
    (h : directlyAbove (w ++ qs.flatMap Piece.text) = some c) :
    directlyAbove (ps.flatMap Piece.text ++ qs.flatMap Piece.text) = some c := by
  obtain ⟨v, hv, rfl | ⟨front, body, rfl⟩⟩ := hqs.cases
  · rw [Piece.text_blanks, directlyAbove_blanks (List.forall_mem_append.mpr ⟨hw, hv⟩)] at h
    cases h
  · have hlast : ∀ {os : List Piece}, Piece.Trivia os →
        directlyAbove (os.flatMap Piece.text
          ++ (front ++ Piece.comment body :: v.map .blank).flatMap Piece.text)
            = if v.count '\n' ≤ 1 then some body.trim else none := by
      intro os hos
      have hall := hos.append hqs
      rw [← List.append_assoc] at hall
      rw [← List.flatMap_append, ← List.append_assoc]
      exact directlyAbove_comment hall
    have hblanks := hlast (Piece.trivia_blanks hw)
    rw [Piece.text_blanks, h] at hblanks
    rw [hlast hps, ← hblanks]

/-! ## Rules and what is above them -/

namespace Piece

/-- If there are pieces, they end in a semicolon. -/
def Shut (ps : List Piece) : Prop :=
  ∀ p ∈ ps.getLast?, ∃ l, p = .lexeme l ∧ l.kind = .semicolon

theorem unindented_lexeme {l : Lexeme} {ps : List Piece} (h : (Piece.lexeme l).Valid) :
    Unindented ((Piece.lexeme l :: ps).flatMap text) := by
  obtain ⟨c, cs, hl⟩ := List.exists_cons_of_ne_nil h.1.ne_nil
  intro d hd
  rw [List.flatMap_cons, show (Piece.lexeme l).text = c :: cs from hl] at hd
  rw [← Option.some.inj hd]
  exact Lexeme.not_isWhiteSpace_head h.1 h.2 hl

/-- The last lexeme of a text that ends in a semicolon is that one. -/
theorem Shut.last {ps : List Piece} (h : Shut ps) (hps : ∀ p ∈ ps, p.Valid)
    (hloose : Loose (ps.filterMap lexeme?)) :
    ∀ l ∈ (lexemes (ps.flatMap text)).getLast?, l.kind = .semicolon := by
  rcases List.eq_nil_or_concat ps with rfl | ⟨front, p, rfl⟩
  · rw [List.flatMap_nil, lexemes_nil]
    exact fun _ hl => nomatch hl
  · rw [List.concat_eq_append] at h hps hloose ⊢
    obtain ⟨m, rfl, hkind⟩ := h p List.getLast?_concat
    obtain ⟨hfront, hlast⟩ := List.forall_mem_append.mp hps
    have hm := List.forall_mem_singleton.mp hlast
    have hone : lexemes ([Piece.lexeme m].flatMap text) = [m] := by
      rw [List.flatMap_singleton]
      exact Lexeme.lexemes_text hm.1 hm.2
    rw [List.flatMap_append, lexemes_seam hfront hlast hloose (unindented_lexeme hm), hone,
      List.getLast?_concat]
    intro l hl
    rw [← Option.some.inj hl]
    exact hkind

end Piece

/-- Behind a semicolon, what is above shows in the text since then. -/
theorem above?_shut {ls : List Lexeme} (h : ∀ l ∈ ls.getLast?, l.kind = .semicolon) (y : Text) :
    Comments.above? (tokensAt 0 (ls ++ lexemes y)).reverse = directlyAbove y := by
  have hplaced := tokensAt_shift (Text.size (spelled ls)) 0 (lexemes y)
  rw [Nat.zero_add] at hplaced
  rw [directlyAbove, tokensAt_append, Nat.zero_add, List.reverse_append, hplaced, ← List.map_reverse]
  rcases List.eq_nil_or_concat ls with rfl | ⟨front, c, rfl⟩
  · rw [tokensAt, List.reverse_nil, List.append_nil, Comments.above?_shift]
  · rw [List.concat_eq_append] at h ⊢
    have hc : c.kind = .semicolon := h c List.getLast?_concat
    obtain ⟨t, ht, hkind⟩ : ∃ t, (tokensAt 0 (front ++ [c])).reverse
        = t :: (tokensAt 0 front).reverse ∧ t.kind = .semicolon :=
      ⟨_, by rw [tokensAt_append, List.reverse_append]; rfl, hc⟩
    rw [ht, Comments.above?_append hkind, Comments.above?_shift]
    -- the first token of a text does not close a comment
    intro u hu
    rw [List.getLast?_map, List.getLast?_reverse] at hu
    obtain ⟨v, hv, rfl⟩ := Option.map_eq_some_iff.mp hu
    refine (lexemes_begins y v.lexeme ?_).2
    rw [← map_lexeme_tokensAt 0 (lexemes y), List.head?_map, hv]
    rfl

/-- **The comment of a rule shows in the trivia above it**, back to the last semicolon. -/
theorem Grammar.comment?_eq_directlyAbove {s : Text} {front gap rest : List Piece} {l : Lexeme}
    (hs : Layout s (front ++ (gap ++ Piece.lexeme l :: rest)))
    (hloose : Loose ((front ++ (gap ++ Piece.lexeme l :: rest)).filterMap Piece.lexeme?))
    (hshut : Piece.Shut front) (hgap : Piece.Trivia gap) {r : Rule Span}
    (hr : r ∈ (parse s).rules)
    (hstart : r.mark.start = Text.size ((front ++ gap).flatMap Piece.text)) :
    (parse s).comment? r = directlyAbove (gap.flatMap Piece.text) := by
  obtain ⟨hfront, hothers⟩ := List.forall_mem_append.mp hs.valid
  obtain ⟨-, hrule⟩ := List.forall_mem_append.mp hothers
  obtain ⟨hl, hrest⟩ := List.forall_mem_cons.mp hrule
  rw [List.filterMap_append] at hloose
  have hlast := hshut.last hfront (hloose.left (Piece.lexical_of_valid hfront))
  have hlexemes : lexemes s = lexemes (front.flatMap Piece.text)
      ++ lexemes (gap.flatMap Piece.text) ++ l :: lexemes (rest.flatMap Piece.text) := by
    have hback := hloose.right
    have hends : ∀ m ∈ (lexemes (front.flatMap Piece.text)).getLast?,
        m.Ends ((gap ++ Piece.lexeme l :: rest).flatMap Piece.text) := by
      intro m hm
      rw [Lexeme.Ends, hlast m hm]
      trivial
    have hnext : lexemes ((Piece.lexeme l :: rest).flatMap Piece.text)
        = l :: lexemes (rest.flatMap Piece.text) := by
      rw [List.filterMap_append] at hback
      have hrun := hback.right
      rw [List.flatMap_cons]
      exact lexemes_lexeme hl.1 hl.2 (ends_pieces hl.2 hrest hrun.1)
    rw [← hs.text, List.flatMap_append, lexemes_append hends, List.flatMap_append,
      Piece.lexemes_seam hgap.1 hrule hback (Piece.unindented_lexeme hl), hnext, List.append_assoc]
  have hspelled : r.mark.start = Text.size (spelled (lexemes (front.flatMap Piece.text)
      ++ lexemes (gap.flatMap Piece.text))) := by
    rw [hstart, spelled_append, spelled, spelled, lexemes_texts, lexemes_texts,
      ← List.flatMap_append]
  rw [comment?_eq hr, hspelled, Comments.leading?_eq hlexemes, above?_shut hlast]

end EbnfKit
