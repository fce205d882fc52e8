import EbnfKit.Proofs.Rounds

/-! # Seams — a text laid out anew

    What a round writes is made of the pieces that no fix is over and of the pieces of the
    replacements, and nothing runs on where they meet:

      s' = the pieces of s, each edited where it stands
      lexemes (x ++ y) = lexemes x ++ lexemes y,   if y does not begin with white space
      tokens of x ++ y = tokens of x, then of y,   if it does

    Whatever is known of pieces one by one is so known of the new text. -/

namespace EbnfKit

open Unicode

/-! ## Looseness -/

theorem Loose.right {ls ms : List Lexeme} (h : Loose (ls ++ ms)) : Loose ms := by
  induction ls with
  | nil => exact h
  | cons l ls ih => exact ih h.2

theorem Loose.left {ls ms : List Lexeme} (h : Loose (ls ++ ms)) (hls : ∀ l ∈ ls, l.Lexical) :
    Loose ls := by
  induction ls with
  | nil => trivial
  | cons l ls ih =>
      obtain ⟨-, hrest⟩ := List.forall_mem_cons.mp hls
      refine ⟨?_, ih h.2 hrest⟩
      -- what follows begins as before, or there is nothing left
      cases ls with
      | nil => exact h.1.nil
      | cons m ls =>
          obtain ⟨c, cs, hm⟩ := List.exists_cons_of_ne_nil (hrest m List.mem_cons_self).ne_nil
          refine h.1.congr ?_
          show (m.text ++ spelled (ls ++ ms)).head? = (m.text ++ spelled ls).head?
          rw [hm]
          rfl

namespace Piece

theorem map_lexeme_tokensAt (offset : Nat) (ps : List Piece) :
    (tokensAt offset ps).map Token.lexeme = ps.filterMap lexeme? := by
  induction ps generalizing offset with
  | nil => rfl
  | cons p ps ih =>
      rw [tokensAt, List.map_append, ih]
      cases p <;> rfl

/-- The lexemes among valid pieces look as their kinds say. -/
theorem lexical_of_valid {ps : List Piece} (hps : ∀ p ∈ ps, p.Valid) :
    ∀ l ∈ ps.filterMap lexeme?, l.Lexical := by
  intro l hl
  obtain ⟨p, hp, hlp⟩ := List.mem_filterMap.mp hl
  have hvalid := hps p hp
  cases p with
  | lexeme m =>
      rw [← Option.some.inj hlp]
      exact hvalid.1
  | blank c => cases hlp
  | comment body => cases hlp

/-- **Scanning goes on at a seam** as if the text began there. -/
theorem lexemes_seam {ps qs : List Piece} (hps : ∀ p ∈ ps, p.Valid) (hqs : ∀ p ∈ qs, p.Valid)
    (hloose : Loose ((ps ++ qs).filterMap lexeme?)) (hseam : Unindented (qs.flatMap text)) :
    lexemes (ps.flatMap text ++ qs.flatMap text)
      = lexemes (ps.flatMap text) ++ lexemes (qs.flatMap text) := by
  induction ps with
  | nil => rw [List.flatMap_nil, lexemes_nil, List.nil_append, List.nil_append]
  | cons p ps ih =>
      obtain ⟨hp, hrest⟩ := List.forall_mem_cons.mp hps
      rw [List.flatMap_cons, List.append_assoc]
      have hboth : (ps ++ qs).flatMap text = ps.flatMap text ++ qs.flatMap text :=
        List.flatMap_append
      cases p with
      | blank c =>
          have hnext := ih hrest hloose
          generalize hx : ps.flatMap text = x at hnext
          generalize hy : qs.flatMap text = y at hnext hseam
          -- the white space goes on as far as it does in front of the seam
          have htake : (x ++ y).takeWhile isWhiteSpace = x.takeWhile isWhiteSpace := by
            have hy' : y.takeWhile isWhiteSpace = [] := by
              cases y with
              | nil => rfl
              | cons d y => rw [List.takeWhile_cons, if_neg (by simp [hseam d rfl])]
            rw [List.takeWhile_append, hy', List.append_nil]
            split
            · rename_i hall
              exact (List.Sublist.eq_of_length (List.takeWhile_sublist _) hall).symm
            · rfl
          show lexemes (c :: (x ++ y)) = lexemes (c :: x) ++ lexemes y
          rw [lexemes_blanks (x ++ y), lexemes_blanks x, htake, List.append_assoc] at hnext
          rw [lexemes_blank hp, lexemes_blank hp, htake, List.cons_append,
            List.append_cancel_left hnext]
      | comment body =>
          have hcut : ∀ y : Text, lexemes ((Piece.comment body).text ++ y)
              = (Lexeme.opened body ++ [⟨.commentEnd, Lexeme.closing⟩]) ++ lexemes y :=
            lexemes_comment hp
          rw [hcut, hcut, ih hrest hloose, ← List.append_assoc]
      | lexeme l =>
          have hends : l.Ends (ps.flatMap text ++ qs.flatMap text) := by
            rw [← hboth]
            exact ends_pieces hp.2 (List.forall_mem_append.mpr ⟨hrest, hqs⟩) hloose.1
          have hends' : l.Ends (ps.flatMap text) := by
            refine ends_pieces hp.2 hrest ?_
            rw [List.filterMap_append] at hloose
            exact (hloose.left (lexical_of_valid hps)).1
          show lexemes (l.text ++ _) = lexemes (l.text ++ _) ++ _
          rw [lexemes_lexeme hp.1 hp.2 hends, lexemes_lexeme hp.1 hp.2 hends', ih hrest hloose.2]
          rfl

/-- A blank at the front of a text changes nothing but white space. -/
theorem tokensAt_blank {c : Char} (h : isWhiteSpace c = true) (offset : Nat) (x : Text) :
    ∃ t us rest, EbnfKit.tokensAt offset (lexemes (c :: x)) = t :: rest ∧
      EbnfKit.tokensAt (offset + c.utf8Size) (lexemes x) = us ++ rest ∧
      ∀ u ∈ t :: us, u.kind = .whitespace := by
  have hsize : offset + Text.size (c :: x.takeWhile isWhiteSpace)
      = offset + c.utf8Size + Text.size (x.takeWhile isWhiteSpace) := (Nat.add_assoc _ _ _).symm
  rw [lexemes_blank h, lexemes_blanks x, EbnfKit.tokensAt, hsize]
  by_cases hnone : x.takeWhile isWhiteSpace = []
  · rw [if_pos hnone, hnone]
    exact ⟨_, [], _, rfl, rfl, List.forall_mem_singleton.mpr rfl⟩
  · rw [if_neg hnone]
    exact ⟨_, [_], _, rfl, rfl, List.forall_mem_cons.mpr ⟨rfl, List.forall_mem_singleton.mpr rfl⟩⟩

/-- A piece at the front of a text puts its lexemes there, and the white space that it takes in. -/
theorem lexemes_front {p : Piece} (hp : p.Valid) {y : Text} (hends : ∀ l ∈ p.lexeme?, l.Ends y) :
    ∃ ls ws rest, lexemes (p.text ++ y) = ls ++ rest ∧ lexemes y = ws ++ rest ∧
      spelled ls = p.text ++ spelled ws ∧ (∀ w ∈ ws, w.kind = .whitespace) ∧
      (∀ l ∈ ls.getLast?, l.Ends []) ∧
      ∀ offset, withoutTrivia (EbnfKit.tokensAt offset ls) = tokensAt offset [p] := by
  cases p with
  | blank c =>
      have hnone : ∀ offset, withoutTrivia (EbnfKit.tokensAt offset
          [⟨.whitespace, c :: y.takeWhile isWhiteSpace⟩]) = [] := fun offset => rfl
      refine ⟨[⟨.whitespace, c :: y.takeWhile isWhiteSpace⟩], _, _, lexemes_blank hp y,
        lexemes_blanks y, ?_, ?_, ?_, hnone⟩
      · split
        · rename_i hnil
          rw [spelled_cons, hnil]
          rfl
        · exact (List.append_nil _).trans (congrArg (c :: ·) (List.append_nil _).symm)
      · split
        · exact List.forall_mem_nil _
        · exact List.forall_mem_singleton.mpr rfl
      · intro l hl
        rw [← Option.some.inj hl]
        exact fun _ h => by cases h
  | comment body =>
      refine ⟨_, [], lexemes y, lexemes_comment hp y, rfl, ?_, List.forall_mem_nil _, ?_, ?_⟩
      · rw [spelled_comment]
        exact (List.append_nil _).symm
      · intro l hl
        rw [List.getLast?_concat] at hl
        rw [← Option.some.inj hl]
        trivial
      · exact fun offset => withoutTrivia_eq_nil Lexeme.isTrivia_comment offset
  | lexeme l =>
      have hl := hends l rfl
      refine ⟨[l], [], lexemes y, lexemes_lexeme hp.1 hp.2 hl, rfl, rfl, List.forall_mem_nil _, ?_, ?_⟩
      · intro m hm
        rw [← Option.some.inj hm]
        exact hl.nil
      · exact fun offset => List.filter_eq_self.mpr (List.forall_mem_singleton.mpr (by simp [hp.2]))

/-- In front of white space a lexeme ends as it does in front of nothing. -/
theorem ends_spread {l : Lexeme} {ps : List Piece} (hl : l.kind.isTrivia = false)
    (hps : ∀ p ∈ ps, p.Valid) (h : l.Ends (spelled (ps.filterMap lexeme?))) {y : Text}
    (hy : ∀ c ∈ y.head?, isWhiteSpace c = true) : l.Ends (ps.flatMap text ++ y) := by
  have hends := ends_pieces hl hps h
  by_cases hnil : ps.flatMap text = []
  · rw [hnil, List.nil_append]
    cases y with
    | nil => exact h.nil
    | cons c y => exact h.nil.separator (Or.inl (hy c rfl)) hl y
  · exact hends.congr (List.head?_append_of_ne_nil _ hnil).symm

/-- **Pieces in front of white space are scanned as they are**, and leave open what is open
    behind them. -/
theorem tokensAt_spread {ps : List Piece} (hps : ∀ p ∈ ps, p.Valid)
    (hloose : Loose (ps.filterMap lexeme?)) {y : Text} (hy : ∀ c ∈ y.head?, isWhiteSpace c = true) :
    (∀ offset, withoutTrivia (EbnfKit.tokensAt offset (lexemes (ps.flatMap text ++ y)))
      = tokensAt offset ps
        ++ withoutTrivia (EbnfKit.tokensAt (offset + Text.size (ps.flatMap text)) (lexemes y))) ∧
      (Finished y → Finished (ps.flatMap text ++ y)) := by
  induction ps with
  | nil => exact ⟨fun offset => rfl, id⟩
  | cons p ps ih =>
      obtain ⟨hp, hrest⟩ := List.forall_mem_cons.mp hps
      have hlater : Loose (ps.filterMap lexeme?) := by
        rw [List.filterMap_eq_flatMap_toList, List.flatMap_cons] at hloose
        rw [List.filterMap_eq_flatMap_toList]
        exact hloose.right
      have hends : ∀ l ∈ p.lexeme?, l.Ends (ps.flatMap text ++ y) := by
        intro l hl
        cases p with
        | lexeme m =>
            rw [← Option.some.inj hl]
            exact ends_spread hp.2 hrest hloose.1 hy
        | blank c => cases hl
        | comment body => cases hl
      obtain ⟨htokens, hfinished⟩ := ih hrest hlater
      obtain ⟨ls, ws, rest, hfront, hback, hspelled, hwhite, hlast, hkept⟩ := lexemes_front hp hends
      have hnone : ∀ offset, withoutTrivia (EbnfKit.tokensAt offset ws) = [] :=
        withoutTrivia_eq_nil fun w hw => by rw [hwhite w hw]; rfl
      rw [List.flatMap_cons, List.append_assoc]
      constructor
      · intro offset
        have hbehind := htokens (offset + Text.size p.text)
        rw [hback, EbnfKit.tokensAt_append, withoutTrivia_append, hnone, List.nil_append] at hbehind
        have hcons : tokensAt offset (p :: ps)
            = tokensAt offset [p] ++ tokensAt (offset + Text.size p.text) ps := by
          rw [tokensAt, tokensAt, tokensAt, List.append_nil]
        rw [hfront, EbnfKit.tokensAt_append, withoutTrivia_append, hkept, hspelled, Text.size_append,
          ← Nat.add_assoc, hbehind, hcons, Text.size_append, ← Nat.add_assoc, List.append_assoc]
      · intro hy
        rw [Finished, hfront]
        refine forall_getLast?_append hlast fun l hl => ?_
        refine hfinished hy l ?_
        rw [hback, List.getLast?_append, hl]
        rfl

/-- The significant tokens of a text are those among its pieces, where they are. -/
theorem tokensAt_eq {ps : List Piece} (hps : ∀ p ∈ ps, p.Valid)
    (hloose : Loose (ps.filterMap lexeme?)) (offset : Nat) :
    tokensAt offset ps = withoutTrivia (EbnfKit.tokensAt offset (lexemes (ps.flatMap text))) := by
  have htokens := (@tokensAt_spread ps hps hloose [] fun _ h => nomatch h).1 offset
  rw [List.append_nil, lexemes_nil] at htokens
  exact (htokens.trans (List.append_nil _)).symm

/-! ## Edited pieces -/

section EditAll

variable {β γ : Type} {fixes : List Fix} {content : Fix → List β} {old : Piece → List β}

/-- Only what the given fixes put matters. -/
theorem editAll_congr {content' : Fix → List β} (h : ∀ f ∈ fixes, content f = content' f)
    (offset : Nat) (ps : List Piece) :
    editAll fixes content old offset ps = editAll fixes content' old offset ps := by
  induction ps generalizing offset with
  | nil => rfl
  | cons p ps ih =>
      rw [editAll, editAll, ih, edited, edited]
      cases hfind : fixes.find? (fun f => f.span.holds offset) with
      | none => rfl
      | some f => simp only [h f (List.mem_of_find?_eq_some hfind)]

/-- What edited pieces come to, one by one, is what they came to, edited. -/
theorem flatMap_editAll (g : β → List γ) (offset : Nat) (ps : List Piece) :
    (editAll fixes content old offset ps).flatMap g
      = editAll fixes (fun f => (content f).flatMap g) (fun p => (old p).flatMap g) offset ps := by
  induction ps generalizing offset with
  | nil => rfl
  | cons p ps ih =>
      rw [editAll, editAll, List.flatMap_append, ih, edited, edited]
      cases fixes.find? (fun f => f.span.holds offset) with
      | none => rfl
      | some f =>
          by_cases hstart : f.span.start = offset
          · simp only [if_pos hstart]
          · simp only [if_neg hstart, List.flatMap_nil]

/-- Edited pieces have what the pieces and the replacements have. -/
theorem forall_mem_editAll {q : β → Prop} {offset : Nat} {ps : List Piece}
    (hold : ∀ p ∈ ps, ∀ b ∈ old p, q b) (hcontent : ∀ f ∈ fixes, ∀ b ∈ content f, q b) :
    ∀ b ∈ editAll fixes content old offset ps, q b := by
  induction ps generalizing offset with
  | nil => exact List.forall_mem_nil _
  | cons p ps ih =>
      obtain ⟨hp, hrest⟩ := List.forall_mem_cons.mp hold
      refine List.forall_mem_append.mpr ⟨?_, ih hrest⟩
      rw [edited]
      cases hfind : fixes.find? (fun f => f.span.holds offset) with
      | none => exact hp
      | some f =>
          by_cases hstart : f.span.start = offset
          · simp only [if_pos hstart]
            exact hcontent f (List.mem_of_find?_eq_some hfind)
          · simp only [if_neg hstart]
            exact List.forall_mem_nil _

end EditAll

end Piece

/-- Pieces are the layout of their text if nothing runs on. -/
theorem Layout.of_loose {ps : List Piece} (hps : ∀ p ∈ ps, p.Valid)
    (hloose : Loose (ps.filterMap Piece.lexeme?)) : Layout (ps.flatMap Piece.text) ps := by
  refine ⟨hps, rfl, ?_⟩
  rw [Piece.tokensAt_eq hps hloose, significant_eq]

/-! ## The text of a round -/

/-- The replacement of the fix is laid out in the pieces, none of them a comment. -/
structure Fix.LaidOut (f : Fix) (ps : List Piece) : Prop where
  valid : ∀ p ∈ ps, p.Valid
  plain : ∀ p ∈ ps, p.body? = none
  text : ps.flatMap Piece.text = f.replacement
  lexemes : ps.filterMap Piece.lexeme? = f.lexemes

/-- The pieces after fixes, where `writing` has those of the replacements. -/
abbrev Piece.relaid (fixes : List Fix) (writing : Fix → List Piece) (offset : Nat)
    (ps : List Piece) : List Piece :=
  editAll fixes writing (fun p => [p]) offset ps

/-- The lexemes among relaid pieces are those among the pieces, edited. -/
theorem Piece.filterMap_relaid {fixes : List Fix} {writing : Fix → List Piece}
    (h : ∀ f ∈ fixes, f.LaidOut (writing f)) (offset : Nat) (ps : List Piece) :
    (relaid fixes writing offset ps).filterMap lexeme?
      = editAll fixes Fix.lexemes (fun p => p.lexeme?.toList) offset ps := by
  rw [List.filterMap_eq_flatMap_toList, flatMap_editAll]
  simp only [List.flatMap_singleton]
  refine editAll_congr (fun f hf => ?_) offset ps
  rw [← List.filterMap_eq_flatMap_toList]
  exact (h f hf).lexemes

/-- A round lays its text out anew: the pieces of the old one, each edited where it stands,
    write the edited tokens, and nothing runs on. -/
structure Relays (fixes : List Fix) (writing : Fix → List Piece) (ps : List Piece) (s' : Text) :
    Prop where
  laidOut : ∀ f ∈ fixes, f.LaidOut (writing f)
  valid : ∀ p ∈ Piece.relaid fixes writing 0 ps, p.Valid
  text : (Piece.relaid fixes writing 0 ps).flatMap Piece.text = s'
  lexemes : (Piece.relaid fixes writing 0 ps).filterMap Piece.lexeme?
    = editTokens fixes (Piece.tokensAt 0 ps)
  loose : Loose ((Piece.relaid fixes writing 0 ps).filterMap Piece.lexeme?)

namespace Grammar

variable {s s' : Text} {ps : List Piece} {fixes : List Fix}

/-- The lexemes of a text without syntax errors do not run on. -/
theorem loose_of_clean (h : (parse s).diagnostics = []) (hs : Layout s ps) :
    Loose (ps.filterMap Piece.lexeme?) := by
  have hmarks : ∀ ls, ∃ m, Reading.bare.marks ls m := fun _ => ⟨(), trivial⟩
  obtain ⟨rs, hrs, -⟩ := (derives_of_clean h).transport hmarks
    ((significant s).map Token.lexeme) (List.map_id _)
  rw [← Piece.map_lexeme_tokensAt 0 ps, hs.tokens]
  refine hrs.loose (List.forall_mem_map.mpr fun t ht => ?_)
  exact ((legible_of_clean h).whole t ht).1

theorem Round.exists_relays (h : (parse s).diagnostics = []) (hs : Layout s ps)
    (hround : Round s fixes s') (happly : Fix.apply s fixes = .ok s') :
    ∃ writing, Relays fixes writing ps s' := by
  have hserves := fun f hf => (hround.serves f hf).applies h hs
  have hlayouts : ∀ f : Fix, ∃ qs, f ∈ fixes → f.LaidOut qs := by
    intro f
    by_cases hf : f ∈ fixes
    · obtain ⟨qs, hqs, htext, hlexemes⟩ := (hserves f hf).2.2.1
      exact ⟨qs, fun _ => ⟨fun p hp => (hqs p hp).1, fun p hp => (hqs p hp).2, htext, hlexemes⟩⟩
    · exact ⟨[], fun hmem => absurd hmem hf⟩
  choose writing hwriting using hlayouts
  have hlexemes : (Piece.relaid fixes writing 0 ps).filterMap Piece.lexeme?
      = editTokens fixes (Piece.tokensAt 0 ps) := by
    rw [Piece.filterMap_relaid hwriting]
    refine Piece.editAll_lexemes hs.valid fun f hf _ _ => ?_
    rw [hs.tokens]
    exact (hserves f hf).2.1
  refine ⟨writing, hwriting, ?_, ?_, hlexemes, ?_⟩
  · exact Piece.forall_mem_editAll (fun p hp => List.forall_mem_singleton.mpr (hs.valid p hp))
      fun f hf => (hwriting f hf).valid
  · rw [← hs.text, Fix.apply_eq hround.ordered fun f hf => (hserves f hf).1,
      Fix.splice_eq hround.ordered hs.valid fun f hf => (hserves f hf).1] at happly
    rw [← Except.ok.inj happly, Piece.flatMap_editAll]
    simp only [List.flatMap_singleton]
    exact Piece.editAll_congr (fun f hf => (hwriting f hf).text) 0 ps
  · obtain ⟨rs', hderives, -⟩ := hround.revised
    rw [hlexemes, hs.tokens]
    exact hderives.loose fun l hl => (hround.whole l hl).1

end Grammar

end EbnfKit
