import EbnfKit.Proofs.Convergence
import EbnfKit.Proofs.Seams

/-! # Survival — the comments that a round keeps

    The comments of a text are those among its pieces, and a round edits it piece by piece.
    What a fix puts holds no comment, so comments go where fixes are and nowhere else:

      comments of s'  =  comments of s that no fix is over

    A fix that rewrites a body is over no comment, or it would not be offered; and what the
    removal of a rule takes besides the rule is white space.  So the comments that go are
    those within rules that are removed. -/

namespace EbnfKit

open Unicode

/-! ## Comments among tokens -/

/-- A comment of a text: where it stands, with its marks, and what is in it. -/
structure Comment where
  span : Span
  body : Text
deriving DecidableEq

namespace Comment

/-- The comment that the mark opens: its body, if it has one, and whatever is behind it. -/
def opened (mark : Token) (following : List Token) : Comment :=
  let body := following.takeWhile (·.is .comment)
  ⟨Span.over (mark :: following.take (body.length + 1)), body.flatMap (·.text)⟩

/-- The comments among tokens, in order. -/
def all : List Token → List Comment
  | [] => []
  | t :: ts => if t.is .commentStart then opened t ts :: all ts else all ts

/-- What opens no comment is passed over. -/
theorem all_append {ts : List Token} (h : ∀ t ∈ ts, t.kind ≠ .commentStart) (us : List Token) :
    all (ts ++ us) = all us := by
  induction ts with
  | nil => rfl
  | cons t ts ih =>
      obtain ⟨ht, hrest⟩ := List.forall_mem_cons.mp h
      rw [List.cons_append, all, Token.is_eq_false_iff.mpr ht]
      exact ih hrest

theorem all_eq_nil_iff {ts : List Token} : all ts = [] ↔ ∀ t ∈ ts, t.is .commentStart = false := by
  induction ts with
  | nil => exact iff_of_true rfl (List.forall_mem_nil _)
  | cons t ts ih =>
      rw [all, List.forall_mem_cons, ← ih]
      cases t.is .commentStart <;> simp

/-- The lexemes of a comment are one comment. -/
theorem all_comment (offset : Nat) (body : Text) (us : List Token) :
    all (tokensAt offset (Lexeme.opened body ++ [⟨.commentEnd, Lexeme.closing⟩]) ++ us)
      = ⟨⟨offset, offset + Text.size (Piece.comment body).text⟩, body⟩ :: all us := by
  have hsize : Text.size (Piece.comment body).text = 2 + (Text.size body + 2) := by
    show Text.size (['(', '*'] ++ (body ++ Lexeme.closing)) = _
    rw [Text.size_append, Text.size_append]
    rfl
  cases body with
  | nil => rfl
  | cons c body =>
      show (⟨⟨offset, offset + 2 + Text.size (c :: body) + 2⟩, c :: body ++ []⟩ : Comment) :: all us = _
      rw [List.append_nil, hsize, Nat.add_assoc, Nat.add_assoc]

end Comment

/-! ## Comments among pieces -/

namespace Piece

/-- The comments among pieces of which the first starts at `offset`. -/
def commentsAt (offset : Nat) : List Piece → List Comment
  | [] => []
  | p :: ps =>
      (p.body?.map fun body => ⟨⟨offset, offset + Text.size p.text⟩, body⟩).toList ++
        commentsAt (offset + Text.size p.text) ps

theorem commentsAt_append (offset : Nat) (ps qs : List Piece) :
    commentsAt offset (ps ++ qs)
      = commentsAt offset ps ++ commentsAt (offset + Text.size (ps.flatMap text)) qs := by
  induction ps generalizing offset with
  | nil => rfl
  | cons p ps ih =>
      rw [List.cons_append, commentsAt, commentsAt, ih, List.flatMap_cons, Text.size_append,
        Nat.add_assoc, List.append_assoc]

/-- A comment stands where the pieces do. -/
theorem bounds_of_mem_commentsAt {offset : Nat} {ps : List Piece} {c : Comment}
    (h : c ∈ commentsAt offset ps) : offset ≤ c.span.start ∧ c.span.start < c.span.stop ∧
      c.span.stop ≤ offset + Text.size (ps.flatMap text) := by
  induction ps generalizing offset with
  | nil => cases h
  | cons p ps ih =>
      rw [List.flatMap_cons, Text.size_append]
      rw [commentsAt] at h
      rcases List.mem_append.mp h with h | h
      · cases p with
        | comment body =>
            have hpos := Text.size_pos (List.cons_ne_nil '(' ('*' :: (body ++ Lexeme.closing)))
            rw [List.mem_singleton.mp h]
            exact ⟨Nat.le_refl _, Nat.lt_add_of_pos_right hpos, by simp only; omega⟩
        | blank d => cases h
        | lexeme l => cases h
      · obtain ⟨hstart, hforward, hstop⟩ := ih h
        exact ⟨by omega, hforward, by omega⟩

/-- There is no comment in white space. -/
theorem commentsAt_blanks (offset : Nat) (w : Text) : commentsAt offset (w.map blank) = [] := by
  induction w generalizing offset with
  | nil => rfl
  | cons c w ih => rw [List.map_cons, commentsAt, ih]; rfl

/-- Whether there is a comment among pieces does not depend on where they stand. -/
theorem commentsAt_eq_nil_iff {offset : Nat} {ps : List Piece} :
    commentsAt offset ps = [] ↔ ∀ p ∈ ps, p.body? = none := by
  induction ps generalizing offset with
  | nil => exact iff_of_true rfl (List.forall_mem_nil _)
  | cons p ps ih =>
      rw [commentsAt, List.append_eq_nil_iff, ih, List.forall_mem_cons]
      cases p <;> simp [body?]

end Piece

namespace Comment

/-- **The comments of a text are those among its pieces.** -/
theorem all_lexemes {ps : List Piece} (hps : ∀ p ∈ ps, p.Valid)
    (hloose : Loose (ps.filterMap Piece.lexeme?)) (offset : Nat) (us : List Token) :
    all (tokensAt offset (lexemes (ps.flatMap Piece.text)) ++ us)
      = Piece.commentsAt offset ps ++ all us := by
  induction ps generalizing offset with
  | nil => rw [List.flatMap_nil, lexemes_nil]; rfl
  | cons p ps ih =>
      obtain ⟨hp, hrest⟩ := List.forall_mem_cons.mp hps
      rw [List.flatMap_cons]
      cases p with
      | blank c =>
          obtain ⟨t, ts, rest, hfirst, hnext, hwhite⟩ :=
            Piece.tokensAt_blank hp offset (ps.flatMap Piece.text)
          have hnone : ∀ u ∈ t :: ts, u.kind ≠ .commentStart :=
            fun u hu => by rw [hwhite u hu]; decide
          obtain ⟨ht, hts⟩ := List.forall_mem_cons.mp hnone
          have hlater := ih hrest hloose (offset + c.utf8Size)
          rw [hnext, List.append_assoc, all_append hts] at hlater
          show all (tokensAt offset (lexemes (c :: ps.flatMap Piece.text)) ++ us) = _
          rw [hfirst]
          exact (all_append (List.forall_mem_singleton.mpr ht) _).trans hlater
      | comment body =>
          have hcut : lexemes ((Piece.comment body).text ++ ps.flatMap Piece.text)
              = (Lexeme.opened body ++ [⟨.commentEnd, Lexeme.closing⟩])
                ++ lexemes (ps.flatMap Piece.text) := lexemes_comment hp _
          rw [hcut, tokensAt_append, List.append_assoc, all_comment, spelled_comment, ih hrest hloose]
          rfl
      | lexeme l =>
          have hcut : lexemes ((Piece.lexeme l).text ++ ps.flatMap Piece.text)
              = [l] ++ lexemes (ps.flatMap Piece.text) :=
            lexemes_lexeme hp.1 hp.2 (ends_pieces hp.2 hrest hloose.1)
          have hkind : ∀ t ∈ tokensAt offset [l], t.kind ≠ .commentStart := by
            intro t ht hk
            rw [List.mem_singleton.mp ht] at hk
            have htrivia := hp.2
            rw [show l.kind = .commentStart from hk] at htrivia
            cases htrivia
          have hspelled : spelled [l] = l.text := List.append_nil _
          rw [hcut, tokensAt_append, List.append_assoc, all_append hkind, hspelled,
            ih hrest hloose.2]
          rfl

/-- The comments of a text laid out in pieces. -/
theorem all_tokenize {s : Text} {ps : List Piece} (hps : ∀ p ∈ ps, p.Valid)
    (htext : ps.flatMap Piece.text = s) (hloose : Loose (ps.filterMap Piece.lexeme?)) :
    all (tokenize s) = Piece.commentsAt 0 ps := by
  rw [tokenize_eq, ← htext, all_lexemes hps hloose]
  exact List.append_nil _

end Comment

/-! ## Comments under fixes -/

variable {s s' : Text} {ps : List Piece} {fixes : List Fix}

/-- Where fixes leave nothing, the comments that they are not over are left. -/
theorem Piece.editAll_bodies (offset : Nat) (ps : List Piece) :
    editAll fixes (fun _ => []) (fun p => p.body?.toList) offset ps
      = ((commentsAt offset ps).filter fun c =>
          !fixes.any fun f => f.span.holds c.span.start).map Comment.body := by
  induction ps generalizing offset with
  | nil => rfl
  | cons p ps ih =>
      rw [editAll, commentsAt, List.filter_append, List.map_append, ← ih]
      congr 1
      have hnothing : ∀ old : List Text, edited fixes (fun _ => []) offset old
          = if fixes.any (fun f => f.span.holds offset) then [] else old := by
        intro old
        rw [edited]
        cases hfind : fixes.find? (fun f => f.span.holds offset) with
        | none =>
            have hnone : fixes.any (fun f => f.span.holds offset) = false :=
              List.any_eq_false.mpr (List.find?_eq_none.mp hfind)
            rw [hnone]
            rfl
        | some f =>
            have hf : f.span.holds offset = true := by simpa using List.find?_some hfind
            have hsome : fixes.any (fun f => f.span.holds offset) = true :=
              List.any_eq_true.mpr ⟨f, List.mem_of_find?_eq_some hfind, hf⟩
            rw [hsome]
            exact ite_self _
      rw [hnothing]
      cases p with
      | blank c => exact ite_self _
      | lexeme l => exact ite_self _
      | comment body =>
          cases hany : fixes.any fun f => f.span.holds offset <;> simp [body?, hany]

/-- A text laid out anew has the comments that no fix is over. -/
theorem Relays.comments {writing : Fix → List Piece} (h : Relays fixes writing ps s') :
    (Comment.all (tokenize s')).map Comment.body = ((Piece.commentsAt 0 ps).filter fun c =>
      !fixes.any fun f => f.span.holds c.span.start).map Comment.body := by
  have hbodies : ∀ offset ps, (Piece.commentsAt offset ps).map Comment.body
      = ps.flatMap fun p => p.body?.toList := by
    intro offset ps
    induction ps generalizing offset with
    | nil => rfl
    | cons p ps ih =>
        rw [Piece.commentsAt, List.map_append, ih, List.flatMap_cons]
        cases p <;> rfl
  rw [Comment.all_tokenize h.valid h.text h.loose, hbodies, Piece.flatMap_editAll,
    ← Piece.editAll_bodies]
  simp only [List.flatMap_singleton]
  refine Piece.editAll_congr (fun f hf => List.flatMap_eq_nil_iff.mpr fun p hp => ?_) 0 ps
  rw [(h.laidOut f hf).plain p hp]
  rfl

/-- Where no comment is seen under a fix, none starts there. -/
theorem Fix.Covers.not_holds_comment {f : Fix} (hf : f.Covers 0 ps) (hs : Layout s ps)
    (hloose : Loose (ps.filterMap Piece.lexeme?)) (h : Fix.holdsComment s f.span = false) :
    ∀ c ∈ Piece.commentsAt 0 ps, f.span.holds c.span.start = false := by
  obtain ⟨before, inside, after, rfl, hstart, hstop⟩ := hf.split hs.valid
  obtain ⟨hbefore, hrest⟩ := List.forall_mem_append.mp hs.valid
  obtain ⟨hinside, -⟩ := List.forall_mem_append.mp hrest
  rw [Nat.zero_add] at hstart
  -- the text under the fix is what the pieces under it spell, and it is scanned by itself
  have hslice : s.slice? f.span = some (inside.flatMap Piece.text) := by
    have hspan : f.span = ⟨Text.size (before.flatMap Piece.text),
        Text.size (before.flatMap Piece.text) + Text.size (inside.flatMap Piece.text)⟩ := by
      rw [← hstart, ← hstop]
    rw [← hs.text, List.flatMap_append, List.flatMap_append, hspan]
    exact Text.slice?_append _ _ _
  have hinner : Loose (inside.filterMap Piece.lexeme?) := by
    rw [List.filterMap_append] at hloose
    have hright := hloose.right
    rw [List.filterMap_append] at hright
    exact hright.left (Piece.lexical_of_valid hinside)
  have hnone : ∀ offset, Piece.commentsAt offset inside = [] := by
    intro offset
    have hall : Comment.all (tokenize (inside.flatMap Piece.text)) = [] := by
      rw [Comment.all_eq_nil_iff]
      rw [Fix.holdsComment, hslice] at h
      exact fun t ht => Bool.eq_false_iff.mpr (List.any_eq_false.mp h t ht)
    rw [Comment.all_tokenize hinside rfl hinner, Piece.commentsAt_eq_nil_iff] at hall
    exact Piece.commentsAt_eq_nil_iff.mpr hall
  intro c hc
  rw [Span.not_holds_iff]
  rw [Piece.commentsAt_append, Piece.commentsAt_append, hnone, List.nil_append] at hc
  rcases List.mem_append.mp hc with hc | hc
  · have := Piece.bounds_of_mem_commentsAt hc
    omega
  · have := Piece.bounds_of_mem_commentsAt hc
    omega

/-- A comment under the removal of a rule is in the rule, for behind it there are blanks. -/
theorem Fix.contains_of_holds_comment {r : Rule Span} (hs : Layout s ps)
    (hstop : Piece.IsBoundary 0 ps r.mark.stop) {c : Comment} (hc : c ∈ Piece.commentsAt 0 ps)
    (h : (Fix.removeRule s r).span.holds c.span.start = true) : r.mark.contains c.span = true := by
  obtain ⟨before, w, after, rfl, hsize, hspan⟩ := Fix.removeRule_blanks hs hstop
  rw [hspan] at h
  obtain ⟨hstart, hbefore⟩ : r.mark.start ≤ c.span.start ∧
      c.span.start < r.mark.stop + Text.size w := Span.holds_iff.mp h
  rw [Span.contains, Bool.and_eq_true, decide_eq_true_iff, decide_eq_true_iff]
  rw [Piece.commentsAt_append, Piece.commentsAt_append, Piece.commentsAt_blanks, List.nil_append,
    Piece.text_blanks] at hc
  rcases List.mem_append.mp hc with hc | hc
  · have := Piece.bounds_of_mem_commentsAt hc
    omega
  · have := Piece.bounds_of_mem_commentsAt hc
    omega

/-! ## Which fixes are offered -/

namespace Fix

variable {g : Grammar} {places : Places}

/-- The fix removes a rule, or there is no comment under it. -/
def Spares (g : Grammar) (f : Fix) : Prop :=
  (∃ r ∈ g.rules, f = removeRule g.source r) ∨ holdsComment g.source f.span = false

/-- A fix is not offered that would lose a comment, unless it removes a rule. -/
theorem offerAt_spares {d : Diagnostic} {f : Fix} (h : offerAt g places d = .ok (some f)) :
    f.Spares g := by
  rw [offerAt] at h
  split at h
  · cases h
  · split at h
    · cases h
    · cases h
    · rename_i found hfind
      split at h
      · cases h
      · rename_i hkept
        cases h
        cases hkeeps : keepsComments d.problem with
        | true =>
            rw [hkeeps, Bool.true_and] at hkept
            exact Or.inr (Bool.eq_false_iff.mpr hkept)
        | false =>
            refine Or.inl ?_
            rw [find] at hfind
            split at hfind
            · split at hfind
              · rename_i r hr
                cases hfind
                exact ⟨r, List.mem_of_find?_eq_some hr, rfl⟩
              · cases hfind
            · rename_i hproblem
              rw [hproblem] at hkeeps
              cases hkeeps
            · rename_i hproblem
              rw [hproblem] at hkeeps
              cases hkeeps
            · cases hfind

end Fix

namespace Grammar

/-- The comment is in a rule that the fixes remove. -/
def deletes (g : Grammar) (fixes : List Fix) (c : Comment) : Bool :=
  g.rules.any fun r => fixes.contains (Fix.removeRule g.source r) && r.mark.contains c.span

/-- The fixes are over the comments that they delete. -/
theorem Round.any_holds_comment (h : (parse s).diagnostics = []) (hs : Layout s ps)
    (hround : Round s fixes s') (hspares : ∀ f ∈ fixes, f.Spares (parse s)) {c : Comment}
    (hc : c ∈ Piece.commentsAt 0 ps) :
    (fixes.any fun f => f.span.holds c.span.start) = (parse s).deletes fixes c := by
  rw [Bool.eq_iff_iff, deletes, List.any_eq_true, List.any_eq_true, source_parse]
  constructor
  · rintro ⟨f, hf, hholds⟩
    rcases hspares f hf with ⟨r, hr, rfl⟩ | hnone
    · rw [source_parse] at hf hholds
      refine ⟨r, hr, Bool.and_eq_true_iff.mpr ⟨List.contains_iff_mem.mpr hf, ?_⟩⟩
      exact Fix.contains_of_holds_comment hs (isBoundary_rule_stop h hs hr) hc hholds
    · rw [source_parse] at hnone
      have hfree := ((hround.serves f hf).applies h hs).1.not_holds_comment hs
        (loose_of_clean h hs) hnone c hc
      rw [hfree] at hholds
      cases hholds
  · rintro ⟨r, hr, hdeleted⟩
    obtain ⟨hf, hwithin⟩ := Bool.and_eq_true_iff.mp hdeleted
    obtain ⟨hstart, -, hstop, -⟩ := span_of_removal h hs hr
    have hbounds := Piece.bounds_of_mem_commentsAt hc
    rw [Span.contains, Bool.and_eq_true, decide_eq_true_iff, decide_eq_true_iff] at hwithin
    exact ⟨_, List.contains_iff_mem.mp hf, Span.holds_iff.mpr ⟨by omega, by omega⟩⟩

/-- **A round keeps comments**: the comments of the text that comes out are those of the text
    before, in order and unchanged, without those in the rules that are removed, which are the
    rules that are not needed. -/
theorem round_keeps_comments (s : Text) (h : (parse s).diagnostics = []) :
    ∃ fixes s', Fix.offerAll (parse s) (parse s).analyze = .ok fixes ∧
      Fix.apply s fixes = .ok s' ∧
      (∀ r ∈ (parse s).rules, Fix.removeRule s r ∈ fixes ↔ ¬(parse s).Reaches r.name) ∧
      (Comment.all (tokenize s')).map Comment.body
        = ((Comment.all (tokenize s)).filter fun c => !(parse s).deletes fixes c).map
            Comment.body := by
  obtain ⟨ps, hs⟩ := (finished_of_clean h).layout
  obtain ⟨fixes, s', hoffer, happly, hround⟩ := exists_round h
  obtain ⟨writing, hrelays⟩ := hround.exists_relays h hs happly
  have hspares : ∀ f ∈ fixes, f.Spares (parse s) := by
    intro f hf
    obtain hnone | ⟨d, -, hd⟩ := Fix.offerAfter_mem hoffer f hf
    · cases hnone
    · exact Fix.offerAt_spares hd
  refine ⟨fixes, s', hoffer, happly, fun r => removal_mem_iff h hs hround.serves hround.removes, ?_⟩
  rw [hrelays.comments, Comment.all_tokenize hs.valid hs.text (loose_of_clean h hs)]
  refine congrArg (List.map Comment.body) (List.filter_congr fun c hc => ?_)
  rw [hround.any_holds_comment h hs hspares hc]

/-- The second rule goes with the comment in it; what looks like one in a string is none, and
    the parentheses around one stay. -/
theorem round_keeps_comments_three_rules :
    (parse "a = '(*' , b , b ; (*1*) c = (*2*) 'y' ; b = ( (*3*) 'z' ) ;".toList).diagnostics = [] ∧
      ∃ fixes, Fix.offerAll
          (parse "a = '(*' , b , b ; (*1*) c = (*2*) 'y' ; b = ( (*3*) 'z' ) ;".toList)
          (parse "a = '(*' , b , b ; (*1*) c = (*2*) 'y' ; b = ( (*3*) 'z' ) ;".toList).analyze
            = .ok fixes ∧
        (Comment.all (tokenize "a = '(*' , 2 * b ; (*1*)  b = ( (*3*) 'z' ) ;".toList)).map
            Comment.body
          = ((Comment.all (tokenize
              "a = '(*' , b , b ; (*1*) c = (*2*) 'y' ; b = ( (*3*) 'z' ) ;".toList)).filter fun c =>
                !(parse "a = '(*' , b , b ; (*1*) c = (*2*) 'y' ; b = ( (*3*) 'z' ) ;".toList).deletes
                  fixes c).map Comment.body ∧
        (Comment.all (tokenize "a = '(*' , 2 * b ; (*1*)  b = ( (*3*) 'z' ) ;".toList)).map
            Comment.body = ["1".toList, "3".toList] := by
  have hclean : (parse "a = '(*' , b , b ; (*1*) c = (*2*) 'y' ; b = ( (*3*) 'z' ) ;".toList).diagnostics
      = [] := by
    decide +kernel
  have hround : (Fix.round
      (parse "a = '(*' , b , b ; (*1*) c = (*2*) 'y' ; b = ( (*3*) 'z' ) ;".toList)
      (parse "a = '(*' , b , b ; (*1*) c = (*2*) 'y' ; b = ( (*3*) 'z' ) ;".toList).analyze).toOption.map
        Prod.snd = some "a = '(*' , 2 * b ; (*1*)  b = ( (*3*) 'z' ) ;".toList := by
    decide +kernel
  obtain ⟨fixes, s', hoffer, happly, -, hcomments⟩ := round_keeps_comments _ hclean
  rw [← source_parse "a = '(*' , b , b ; (*1*) c = (*2*) 'y' ; b = ( (*3*) 'z' ) ;".toList] at happly
  rw [round_eq_ok hoffer happly] at hround
  cases hround
  exact ⟨hclean, fixes, hoffer, hcomments, by decide +kernel⟩

end Grammar

end EbnfKit
