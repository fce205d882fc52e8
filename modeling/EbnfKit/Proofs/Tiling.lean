import Mathlib.Data.List.Chain
import EbnfKit.Proofs.Seams

/-! # Tiling — the tokens of a text, end to end

    Scanning ends, loses nothing and stops nowhere too early.  Each token starts where the
    one before it stops, and the last one, alone, is the empty one at the end:

      tokenize s  =  ts ++ [end of input],   spelled ts = s,   |ts| ≤ |s|

    No token would have been a part of the one in front of it (`absorbs`), and comments come
    framed: an opening mark, at most one body without a closing mark in it, and then the
    closing mark or the end of the input (`Framed`). -/

namespace EbnfKit

open Unicode

/-! ## End to end -/

/-- The tokens lie end to end over all of the text, each on its own part of it. -/
structure Tiles (s : Text) (ts : List Token) : Prop where
  texts : ts.flatMap (·.text) = s
  slice : ∀ t ∈ ts, s.slice? t.span = some t.text
  bounds : ∀ t ∈ ts, s.isBoundary t.span.start = true ∧ s.isBoundary t.span.stop = true
  start : ∀ t ∈ ts.head?, t.span.start = 0
  next : ts.IsChain fun t u => t.span.stop = u.span.start
  stop : ∀ t ∈ ts.getLast?, t.span.stop = s.size

/-- A token stands behind some of the text, on a part of it. -/
theorem exists_of_mem_place {front : Text} {ls : List Lexeme} {t : Token}
    (h : t ∈ place front.size ls) : ∃ x z, front ++ spelled ls = x ++ (t.text ++ z) ∧
      t.span = ⟨x.size, x.size + t.text.size⟩ := by
  induction ls generalizing front with
  | nil =>
      rw [List.mem_singleton.mp h]
      exact ⟨front, [], rfl, rfl⟩
  | cons l ls ih =>
      rw [place] at h
      rcases List.mem_cons.mp h with rfl | h
      · exact ⟨front, spelled ls, rfl, rfl⟩
      · rw [← Text.size_append] at h
        obtain ⟨x, z, htext, hspan⟩ := ih h
        exact ⟨x, z, by rw [← htext, spelled_cons, List.append_assoc], hspan⟩

theorem start_of_mem_head_place {offset : Nat} {ls : List Lexeme} :
    ∀ t ∈ (place offset ls).head?, t.span.start = offset := by
  intro t ht
  cases ls with
  | nil => rw [← Option.some.inj ht]; rfl
  | cons l ls => rw [← Option.some.inj ht]

theorem place_next (offset : Nat) (ls : List Lexeme) :
    (place offset ls).IsChain fun t u => t.span.stop = u.span.start := by
  induction ls generalizing offset with
  | nil => exact .singleton _
  | cons l ls ih => exact (ih _).cons fun t ht => (start_of_mem_head_place t ht).symm

/-- The tokens of a text tile it. -/
theorem tiles_tokenize (s : Text) : Tiles s (tokenize s) := by
  have hpart : ∀ t ∈ tokenize s, ∃ x z, s = x ++ (t.text ++ z) ∧
      t.span = ⟨x.size, x.size + t.text.size⟩ := by
    intro t ht
    obtain ⟨x, z, htext, hspan⟩ := @exists_of_mem_place [] (lexemes s) t ht
    rw [List.nil_append, spelled, lexemes_texts] at htext
    exact ⟨x, z, htext, hspan⟩
  refine ⟨Grammar.source_parse s, ?_, ?_, ?_, place_next 0 _, ?_⟩
  · intro t ht
    obtain ⟨x, z, htext, hspan⟩ := hpart t ht
    rw [hspan, htext]
    exact Text.slice?_append x t.text z
  · intro t ht
    obtain ⟨x, z, htext, hspan⟩ := hpart t ht
    rw [hspan, htext]
    refine ⟨Text.isBoundary_iff.mpr ⟨x, t.text ++ z, rfl, rfl⟩, ?_⟩
    exact Text.isBoundary_iff.mpr
      ⟨x ++ t.text, z, (List.append_assoc _ _ _).symm, (Text.size_append _ _).symm⟩
  · exact start_of_mem_head_place
  · intro t ht
    rw [tokenize_eq, List.getLast?_concat] at ht
    rw [← Option.some.inj ht]
    rfl

/-- The end of input stands at the end and nowhere else, and no other token is empty. -/
theorem tokenize_ends (s : Text) : ∃ ts, tokenize s = ts ++ [.atEnd s.size] ∧
    ∀ t ∈ ts, t.kind ≠ .endOfInput ∧ t.text ≠ [] ∧ t.span.start < t.span.stop := by
  have hlexical := lexemes_lexical s
  refine ⟨tokensAt 0 (lexemes s), tokenize_eq s, fun t ht => ⟨?_, ?_, ?_⟩⟩
  · exact beq_eq_false_iff_ne.mp (tokensAt_ne_endOfInput hlexical t ht)
  · exact (hlexical _ (mem_tokensAt ht).1).ne_nil
  · exact (tokensAt_scanned hlexical).forward t ht

/-- Scanning ends: it takes no more steps than there are characters. -/
theorem length_tokenize_le (s : Text) : (tokenize s).length ≤ s.length + 1 := by
  obtain ⟨ts, heq, hts⟩ := tokenize_ends s
  have htexts := (tiles_tokenize s).texts
  rw [heq, List.flatMap_append] at htexts
  have hlen : ∀ us : List Token, (∀ t ∈ us, t.text ≠ []) →
      us.length ≤ (us.flatMap (·.text)).length := by
    intro us hus
    induction us with
    | nil => exact Nat.le_refl _
    | cons u us ih =>
        obtain ⟨hu, hrest⟩ := List.forall_mem_cons.mp hus
        have hpos := List.length_pos_iff.mpr hu
        have := ih hrest
        rw [List.flatMap_cons, List.length_append, List.length_cons]
        omega
  have hle := hlen ts fun t ht => (hts t ht).2.1
  rw [heq, ← htexts, List.length_append, List.length_append, List.length_singleton]
  omega

/-! ## As long as can be -/

/-- A token of kind `b` is what a token of kind `a` in front of it would have taken in. -/
def TokenKind.absorbs (a b : TokenKind) : Bool :=
  match a, b with
  | .whitespace, .whitespace => true
  | .number, .number => true
  | .identifier, .identifier => true
  | .identifier, .number => true
  | _, _ => false

namespace Lexeme

/-- The digits may continue a rule name. -/
theorem isNameChar_of_isDigit {c : Char} (h : isDigit c = true) : isNameChar c = true := by
  obtain ⟨hlo, hhi⟩ : '0' ≤ c ∧ c ≤ '9' := by simpa [isDigit] using h
  have hlo' : 48 ≤ c.toNat := hlo
  have hhi' : c.toNat ≤ 57 := hhi
  -- the digits are the first numerals there are
  have hnumeral : isNumeral c = true := by
    show CodePoints.has ((48, 57) :: _) c.toNat = true
    rw [CodePoints.has, if_neg (by omega), if_pos hhi']
  rw [isNameChar, hnumeral, Bool.or_true, Bool.true_or]

/-- How a run begins. -/
theorem Lexical.head {l : Lexeme} (h : l.Lexical) : ∃ c, l.text.head? = some c ∧
    (l.kind = .whitespace → isWhiteSpace c = true) ∧
    (l.kind = .identifier → isNameChar c = true) ∧ (l.kind = .number → isDigit c = true) := by
  obtain ⟨c, cs, htext⟩ := List.exists_cons_of_ne_nil h.ne_nil
  have hc : c ∈ l.text := by
    rw [htext]
    exact List.mem_cons_self
  refine ⟨c, by rw [htext]; rfl, fun hk => ?_, fun hk => ?_, fun hk => ?_⟩
  · rw [Lexical, hk] at h
    exact h.2 c hc
  · rw [Lexical, hk] at h
    obtain ⟨d, ds, htext', -, halphabetic, -⟩ := h
    obtain rfl : c = d := (List.cons.inj (htext.symm.trans htext')).1
    rw [isNameChar, halphabetic, Bool.true_or, Bool.true_or]
  · rw [Lexical, hk] at h
    exact h.2 c hc

/-- What ends in front of a lexeme does not absorb it. -/
theorem Ends.not_absorbs {l m : Lexeme} {more : Text} (h : l.Ends (m.text ++ more))
    (hm : m.Lexical) : l.kind.absorbs m.kind = false := by
  obtain ⟨c, hc, hblank, hname, hdigit⟩ := hm.head
  have hhead : c ∈ (m.text ++ more).head? := by
    rw [List.head?_append, hc]
    rfl
  -- only the three kinds of run absorb anything, and none of them goes on with `c`
  rw [← Bool.not_eq_true]
  intro habsorbs
  unfold Ends at h
  unfold TokenKind.absorbs at habsorbs
  split at habsorbs
  · next hl hk =>
      rw [hl] at h
      exact Bool.noConfusion ((h c hhead).symm.trans (hblank hk))
  · next hl hk =>
      rw [hl] at h
      exact Bool.noConfusion ((h c hhead).symm.trans (hdigit hk))
  · next hl hk =>
      rw [hl] at h
      exact Bool.noConfusion ((h c hhead).symm.trans (hname hk))
  · next hl hk =>
      rw [hl] at h
      exact Bool.noConfusion ((h c hhead).symm.trans (isNameChar_of_isDigit (hdigit hk)))
  · cases habsorbs

namespace Bite

variable {x rest : Text} {ls : List Lexeme}

/-- A bite with something behind it ends there. -/
theorem ends (h : Bite x ls rest) (hrest : rest ≠ []) : ∀ l ∈ ls.getLast?, l.Ends rest := by
  intro l hl
  cases h with
  | blanks _ _ hnext =>
      rw [← Option.some.inj hl]
      exact hnext
  | solid _ _ hends =>
      rw [← Option.some.inj hl]
      exact hends.resolve_left fun hopen => hrest hopen.2
  | comment _ =>
      rw [List.getLast?_concat] at hl
      rw [← Option.some.inj hl]
      trivial
  | openComment _ => exact absurd rfl hrest

/-- Within a bite nothing is absorbed. -/
theorem not_absorbs (h : Bite x ls rest) :
    ls.IsChain fun l m => l.kind.absorbs m.kind = false := by
  have hopened : ∀ body : Text, (opened body).IsChain fun l m => l.kind.absorbs m.kind = false := by
    intro body
    rw [opened]
    split
    · exact .singleton _
    · exact .cons_cons rfl (.singleton _)
  cases h with
  | blanks => exact .singleton _
  | solid => exact .singleton _
  | comment =>
      refine (hopened _).append (.singleton _) fun l hl m hm => ?_
      rw [← Option.some.inj hm]
      rcases kind_of_mem_opened (List.mem_of_getLast? hl) with hk | hk
      · rw [hk]; rfl
      · rw [hk]; rfl
  | openComment => exact hopened _

end Bite

end Lexeme

/-- No lexeme of a text absorbs the next one. -/
theorem lexemes_maximal (x : Text) :
    (lexemes x).IsChain fun l m => l.kind.absorbs m.kind = false := by
  induction x using lexemes.induct with
  | case1 => rw [lexemes_nil]; exact .nil
  | case2 c cs ih =>
      have hbite := Lexeme.munch_bite c cs
      rw [lexemes_cons]
      refine hbite.not_absorbs.append ih fun l hl m hm => ?_
      -- what is left begins with the next lexeme
      obtain ⟨ms, hms⟩ := List.head?_eq_some_iff.mp hm
      have hrest := lexemes_texts (Lexeme.munch c cs).2
      have hlexical := lexemes_lexical (Lexeme.munch c cs).2
      rw [hms, List.flatMap_cons] at hrest
      rw [hms] at hlexical
      have hm := hlexical m List.mem_cons_self
      have hne : (Lexeme.munch c cs).2 ≠ [] := by
        rw [← hrest]
        exact List.append_ne_nil_of_left_ne_nil hm.ne_nil _
      have hends := hbite.ends hne l hl
      rw [← hrest] at hends
      exact hends.not_absorbs hm

theorem tokenize_maximal (s : Text) :
    (tokenize s).IsChain fun t u => t.kind.absorbs u.kind = false := by
  rw [tokenize_eq]
  refine List.IsChain.append ?_ (.singleton _) fun t _ u hu => ?_
  · have hlexemes := lexemes_maximal s
    rw [← map_lexeme_tokensAt 0 (lexemes s), List.isChain_map] at hlexemes
    exact hlexemes
  · rw [← Option.some.inj hu]
    show t.kind.absorbs .endOfInput = false
    cases t.kind <;> rfl

/-! ## Comments -/

/-- Each opening mark of a comment has at most one body behind it, without a closing mark in
    it, and then the closing mark or the end of the input; bodies and closing marks stand
    nowhere else. -/
inductive Framed : List Token → Prop
  | nil : Framed []
  | other {t ts} : t.kind ≠ .commentStart → t.kind ≠ .comment → t.kind ≠ .commentEnd →
      Framed ts → Framed (t :: ts)
  | comment {mark body close ts} : mark.kind = .commentStart → body.length ≤ 1 →
      (∀ t ∈ body, t.kind = .comment ∧ ¬Lexeme.closing <:+: t.text) →
      close.kind = .commentEnd ∨ close.kind = .endOfInput →
      Framed ts → Framed (mark :: (body ++ close :: ts))

namespace Framed

/-- An opened comment is framed if what follows begins with its end. -/
theorem opened {body : Text} (hbody : Lexeme.Unmarked body) {ls : List Lexeme}
    (hnext : ∀ offset, ∃ close ts, place offset ls = close :: ts ∧
      (close.kind = .commentEnd ∨ close.kind = .endOfInput) ∧ Framed ts) (offset : Nat) :
    Framed (place offset (Lexeme.opened body ++ ls)) := by
  rw [Lexeme.opened]
  split
  · obtain ⟨close, ts, heq, hclose, hts⟩ := hnext (offset + Text.size ['(', '*'])
    rw [List.cons_append, place, List.nil_append, heq]
    exact @comment _ [] close ts rfl (Nat.zero_le _) (List.forall_mem_nil _) hclose hts
  · obtain ⟨close, ts, heq, hclose, hts⟩ := hnext (offset + Text.size ['(', '*'] + body.size)
    rw [List.cons_append, place, List.singleton_append, place, heq]
    refine @comment _ [_] close ts rfl (Nat.le_refl _) (List.forall_mem_singleton.mpr ?_) hclose hts
    exact ⟨rfl, Lexeme.unmarked_iff.mp hbody⟩

end Framed

theorem framed_place (x : Text) : ∀ offset, Framed (place offset (lexemes x)) := by
  induction x using lexemes.induct with
  | case1 =>
      intro offset
      rw [lexemes_nil]
      exact .other TokenKind.noConfusion TokenKind.noConfusion TokenKind.noConfusion .nil
  | case2 c cs ih =>
      have hbite := Lexeme.munch_bite c cs
      rw [lexemes_cons]
      generalize c :: cs = x at hbite
      generalize (Lexeme.munch c cs).1 = ls, (Lexeme.munch c cs).2 = rest at hbite ih
      cases hbite with
      | blanks =>
          exact fun offset =>
            .other TokenKind.noConfusion TokenKind.noConfusion TokenKind.noConfusion (ih _)
      | @solid l _ _ hk =>
          have hother : ∀ kind : TokenKind, kind.isTrivia = true → l.kind ≠ kind := by
            rintro kind htrivia rfl
            exact Bool.noConfusion (hk.symm.trans htrivia)
          exact fun offset => .other (hother _ rfl) (hother _ rfl) (hother _ rfl) (ih _)
      | comment hbody =>
          intro offset
          rw [List.append_assoc]
          exact .opened hbody (fun o => ⟨_, _, rfl, Or.inl rfl, ih _⟩) offset
      | openComment hbody =>
          intro offset
          rw [lexemes_nil]
          exact .opened hbody (fun o => ⟨_, _, rfl, Or.inr rfl, .nil⟩) offset

/-- **Scanning is total, lossless and maximal.** -/
theorem tokenize_tiles (s : Text) :
    (tokenize s).length ≤ s.length + 1 ∧ Tiles s (tokenize s) ∧
      (∃ ts, tokenize s = ts ++ [.atEnd s.size] ∧
        ∀ t ∈ ts, t.kind ≠ .endOfInput ∧ t.text ≠ [] ∧ t.span.start < t.span.stop) ∧
      ((tokenize s).IsChain fun t u => t.kind.absorbs u.kind = false) ∧ Framed (tokenize s) :=
  ⟨length_tokenize_le s, tiles_tokenize s, tokenize_ends s, tokenize_maximal s, framed_place s 0⟩

/-- The star of an opening mark does not close the comment. -/
example : (tokenize "(*)a".toList).map (·.kind) = [.commentStart, .comment, .endOfInput] := by
  decide +kernel

end EbnfKit
