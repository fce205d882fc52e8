import EbnfKit.Proofs.Reported
import EbnfKit.Proofs.Restart

/-! # Cuts — the tokens on either side of a cut

    A text cut where a token starts, or where one stops, has its tokens cut there as well:

      tokenize s = ts ++ t :: us

      tokens of s from t.start  =  t :: us, moved to the front     if t is outside a comment
      tokens of s up to t.stop  =  ts ++ [t, end of input]         if t stops by itself

    What goes on with a comment would be read anew without its opening mark.  What stops by
    itself is a sign, a string with both its quotes, or the closing mark of a comment: a run
    stops only at what follows, and a cut there takes that away. -/

namespace EbnfKit

/-- Lexemes that start further behind have their tokens there, and so has the end of input. -/
theorem place_shift (n : Nat) (ls : List Lexeme) :
    place n ls = (place 0 ls).map (Token.shift n) := by
  rw [place_eq, place_eq, List.map_append, ← tokensAt_shift, Nat.zero_add, Nat.zero_add, Nat.add_comm]
  rfl

/-- Tokens are cut where their lexemes are, and some stand behind the cut. -/
theorem exists_lexemes_of_cut {s : Text} {ts us : List Token} (h : tokenize s = ts ++ us)
    (hus : us ≠ []) : ∃ ls ms, lexemes s = ls ++ ms ∧ s = spelled ls ++ spelled ms ∧
      ts = tokensAt 0 ls ∧ us = place (Text.size (spelled ls)) ms := by
  obtain ⟨vs, u, rfl⟩ := (List.eq_nil_or_concat us).resolve_left hus
  rw [List.concat_eq_append, tokenize_eq, ← List.append_assoc] at h
  obtain ⟨htokens, hend⟩ := List.append_inj' h rfl
  obtain ⟨hlexemes, hts, hvs⟩ := tokensAt_eq_append htokens
  have htext : s = spelled (ts.map Token.lexeme) ++ spelled (vs.map Token.lexeme) := by
    rw [← spelled_append, ← hlexemes, spelled, lexemes_texts]
  refine ⟨_, _, hlexemes, htext, hts, ?_⟩
  rw [List.concat_eq_append, place_eq, ← Text.size_append, ← htext, ← hend]
  rw [Nat.zero_add] at hvs
  rw [← hvs]

/-- **A text can be scanned from any token on** that does not go on with a comment. -/
theorem tokenize_from {s : Text} {ts us : List Token} {t : Token} (h : tokenize s = ts ++ t :: us)
    (hbegins : t.lexeme.Begins) : ∃ x y, s.cut? t.span.start = some (x, y) ∧
      (tokenize y).map (Token.shift t.span.start) = t :: us := by
  obtain ⟨ls, ms, hlexemes, htext, -, hplace⟩ := exists_lexemes_of_cut h (List.cons_ne_nil t us)
  have hstart : t.span.start = (spelled ls).size :=
    start_of_mem_head_place t (by rw [← hplace]; rfl)
  have hms : lexemes (spelled ms) = ms := by
    refine lexemes_rest hlexemes fun m hm => ?_
    obtain ⟨ns, rfl⟩ := List.head?_eq_some_iff.mp hm
    rw [place] at hplace
    rw [(List.cons.inj hplace).1] at hbegins
    exact hbegins
  refine ⟨spelled ls, spelled ms, ?_, ?_⟩
  · rw [hstart]
    conv_lhs => rw [htext]
    exact Text.cut?_append _ _
  · rw [tokenize, hms, hstart, ← place_shift, hplace]

/-- **A text can be scanned up to any token** that ends where the text does. -/
theorem tokenize_upTo {s : Text} {ts us : List Token} {t : Token} (h : tokenize s = ts ++ t :: us)
    (hus : us ≠ []) (hends : t.lexeme.Ends []) : ∃ x y, s.cut? t.span.stop = some (x, y) ∧
      tokenize x = ts ++ [t, .atEnd t.span.stop] := by
  have hcut : tokenize s = (ts ++ [t]) ++ us := by
    rw [h, List.append_assoc]
    rfl
  obtain ⟨ls, ms, hlexemes, htext, htokens, -⟩ := exists_lexemes_of_cut hcut hus
  obtain ⟨hls, -, hlast⟩ := tokensAt_eq_append htokens.symm
  have hstop : t.span.stop = (spelled ls).size := by
    have hlast := congrArg (List.map (·.span.stop)) hlast
    simp only [List.map_cons, List.map_nil, tokensAt, Nat.zero_add] at hlast
    rw [hls, List.map_singleton, spelled_append, Text.size_append, spelled, spelled,
      List.flatMap_singleton]
    exact (List.cons.inj hlast).1
  have hfront : lexemes (spelled ls) = ls := by
    refine lexemes_front hlexemes fun l hl => ?_
    rw [hls, List.map_singleton, List.getLast?_concat] at hl
    rwa [← Option.some.inj hl]
  refine ⟨spelled ls, spelled ms, ?_, ?_⟩
  · rw [hstop]
    conv_lhs => rw [htext]
    exact Text.cut?_append _ _
  · rw [tokenize_eq, hfront, ← htokens, hstop, List.append_assoc]
    rfl

/-- Behind every token but the end of input there are more. -/
theorem ne_nil_of_cut {s : Text} {ts us : List Token} {t : Token} (h : tokenize s = ts ++ t :: us)
    (hk : t.kind ≠ .endOfInput) : us ≠ [] := by
  rintro rfl
  rw [tokenize_eq] at h
  obtain ⟨-, hlast⟩ := List.append_inj' h rfl
  rw [← (List.cons.inj hlast).1] at hk
  exact hk rfl

/-- A token that stops by itself: a sign, a string with both its quotes, or the closing mark of
    a comment. -/
inductive Token.StopsAlone (t : Token) : Prop
  | sign : t.kind.IsSign → t.StopsAlone
  | string : t.kind = .stringLiteral → (Quoted.ofText t.text).closed = true → t.StopsAlone
  | comment : t.kind = .commentEnd → t.StopsAlone

namespace Token.StopsAlone

variable {t : Token}

theorem ne_endOfInput (h : t.StopsAlone) : t.kind ≠ .endOfInput := by
  cases h with
  | sign hk =>
      obtain ⟨c, hc, hk⟩ := hk
      have hall : (signs.all fun c => TokenKind.ofChar c != .endOfInput) = true := by decide
      rw [← hk]
      exact bne_iff_ne.mp (List.all_eq_true.mp hall c hc)
  | string hk _ => exact hk ▸ TokenKind.noConfusion
  | comment hk => exact hk ▸ TokenKind.noConfusion

/-- It ends where the text does. -/
theorem ends (h : t.StopsAlone) (hl : t.lexeme.Lexical) : t.lexeme.Ends [] := by
  cases h with
  | sign hk =>
      obtain ⟨c, hc, heq⟩ := Lexeme.sign_of_kind hl hk
      rw [heq]
      exact (Lexeme.sign_whole hc).ends
  | string hk hclosed =>
      have hkind : t.lexeme.kind = .stringLiteral := hk
      rw [Lexeme.Ends, hkind]
      exact (quotes_ofText hl hkind).2.symm.trans hclosed
  | comment hk =>
      have hkind : t.lexeme.kind = .commentEnd := hk
      rw [Lexeme.Ends, hkind]
      trivial

end Token.StopsAlone

/-- **The tokens of a text are cut where the text is.**  From any token on that is not the body
    or the closing mark of a comment the text has the rest of the tokens, moved to the front;
    and up to any token that stops by itself it has the tokens so far. -/
theorem tokenize_cut {s : Text} {ts us : List Token} {t : Token}
    (h : tokenize s = ts ++ t :: us) :
    (t.kind ≠ .comment → t.kind ≠ .commentEnd → ∃ x y, s.cut? t.span.start = some (x, y) ∧
      (tokenize y).map (Token.shift t.span.start) = t :: us) ∧
    (t.StopsAlone → ∃ x y, s.cut? t.span.stop = some (x, y) ∧
      tokenize x = ts ++ [t, .atEnd t.span.stop]) := by
  refine ⟨fun hbody hclose => tokenize_from h ⟨hbody, hclose⟩, fun hstops => ?_⟩
  have hend := hstops.ne_endOfInput
  have hmem : t ∈ tokenize s := by
    rw [h]
    exact List.mem_append_right ts List.mem_cons_self
  exact tokenize_upTo h (ne_nil_of_cut h hend) (hstops.ends (Grammar.lexical_of_mem hmem hend))

/-- At a string with a letter of two bytes in it, behind a comment and in front of a sign. -/
theorem tokenize_cut_string : ∃ (s : Text) (ts us : List Token) (t : Token),
    s = "(*x*)'é';b".toList ∧ tokenize s = ts ++ t :: us ∧
    t = ⟨.stringLiteral, ⟨5, 9⟩, "'é'".toList⟩ ∧ t.StopsAlone ∧
    (tokenize "'é';b".toList).map (Token.shift 5) = t :: us ∧
    tokenize "(*x*)'é'".toList = ts ++ [t, .atEnd 9] := by
  have hcut : tokenize "(*x*)'é';b".toList
      = (tokenize "(*x*)'é';b".toList).take 3 ++
        ⟨.stringLiteral, ⟨5, 9⟩, "'é'".toList⟩ :: (tokenize "(*x*)'é';b".toList).drop 4 := by
    decide +kernel
  have hstops : Token.StopsAlone ⟨.stringLiteral, ⟨5, 9⟩, "'é'".toList⟩ :=
    .string rfl (by decide +kernel)
  obtain ⟨hfrom, hupTo⟩ := tokenize_cut hcut
  obtain ⟨x, y, hxy, hrest⟩ := hfrom TokenKind.noConfusion TokenKind.noConfusion
  obtain ⟨x', y', hxy', hfront⟩ := hupTo hstops
  have hy : Text.cut? "(*x*)'é';b".toList 5 = some ("(*x*)".toList, "'é';b".toList) := by
    decide +kernel
  have hx : Text.cut? "(*x*)'é';b".toList 9 = some ("(*x*)'é'".toList, ";b".toList) := by
    decide +kernel
  obtain ⟨-, rfl⟩ := Prod.mk.inj (Option.some.inj (hy.symm.trans hxy))
  obtain ⟨rfl, -⟩ := Prod.mk.inj (Option.some.inj (hx.symm.trans hxy'))
  exact ⟨_, _, _, _, rfl, hcut, rfl, hstops, hrest, hfront⟩

end EbnfKit
