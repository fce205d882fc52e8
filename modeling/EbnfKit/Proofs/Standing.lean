import EbnfKit.Proofs.Convergence
import EbnfKit.Proofs.Entries

/-! # Standing — what is above a rule after a round

    A round cuts out the rules that are not needed, each with the line break behind it, and
    leaves what is between them.  So the trivia between two rules that stay are those that
    were there, and the comment of a rule is looked for in them:

      a ; (* 1 *) b ; (* 2 *) c ;      b is not needed
      a ; (* 1 *)  (* 2 *) c ;         what is above c

    A rule keeps the comment that it has, and it keeps having none if no rule is cut out
    right in front of it.  If one is, the comment above that one may become its own. -/

namespace EbnfKit

open Unicode

variable {s s' : Text} {fixes : List Fix} {writing : Fix → List Piece}

/-! ## Pieces between fixes -/

namespace Piece

/-- Pieces that no fix reaches into stay. -/
theorem relaid_free {offset : Nat} {ps : List Piece} (hps : ∀ p ∈ ps, p.Valid)
    (h : ∀ f ∈ fixes, f.span.stop ≤ offset ∨ offset + Text.size (ps.flatMap text) ≤ f.span.start) :
    relaid fixes writing offset ps = ps := by
  induction ps generalizing offset with
  | nil => rfl
  | cons p ps ih =>
      obtain ⟨hp, hrest⟩ := List.forall_mem_cons.mp hps
      have hsize := Text.size_pos hp.text_ne_nil
      rw [List.flatMap_cons, Text.size_append] at h
      rw [relaid, editAll, edited_untouched]
      · refine congrArg (p :: ·) (ih hrest fun f hf => ?_)
        have := h f hf
        omega
      · intro f hf
        have := h f hf
        exact Span.not_holds_iff.mpr (by omega)

/-- Cuts at the same place are the same. -/
theorem append_inj_of_size {ps qs ps' qs' : List Piece} (h : ps ++ qs = ps' ++ qs')
    (hps : ∀ p ∈ ps ++ qs, p.Valid)
    (hsize : Text.size (ps.flatMap text) = Text.size (ps'.flatMap text)) : ps = ps' ∧ qs = qs' := by
  have hnone : ∀ {as bs : List Piece}, (∀ p ∈ bs, p.Valid) →
      Text.size (as.flatMap text) = Text.size ((as ++ bs).flatMap text) → bs = [] := by
    intro as bs hbs hsame
    rw [List.flatMap_append, Text.size_append] at hsame
    exact eq_nil_of_size hbs (by omega)
  rcases List.append_eq_append_iff.mp h with ⟨as, rfl, rfl⟩ | ⟨bs, rfl, rfl⟩
  · obtain rfl := hnone (fun p hp => hps p (by simp [hp])) hsize
    exact ⟨(List.append_nil ps).symm, rfl⟩
  · obtain rfl := hnone (fun p hp => hps p (by simp [hp])) hsize.symm
    exact ⟨List.append_nil ps', rfl⟩

end Piece

/-! ## Rules that stay -/

/-- The fix is in front of the rule, in its body, or behind it. -/
def Fix.Around (f : Fix) (r : Rule Span) : Prop :=
  f.span.start < f.span.stop ∧
    (f.span.stop ≤ r.mark.start ∨ f ∈ r.body.fixes ∨ r.mark.stop ≤ f.span.start)

section Stay

variable {r : Rule Span} {name semicolon : Lexeme} {inner : List Piece}

/-- The pieces of the rule, and where it stands. -/
structure Rule.StandsIn (r : Rule Span) (name : Lexeme) (inner : List Piece) (semicolon : Lexeme) :
    Prop where
  valid : ∀ p ∈ Piece.ofRule name inner semicolon, p.Valid
  legible : Legible (Piece.tokensAt r.mark.start (Piece.ofRule name inner semicolon))
  derives : Rule.Derives .placed (Piece.tokensAt r.mark.start (Piece.ofRule name inner semicolon)) r
  stop : r.mark.stop
    = r.mark.start + Text.size ((Piece.ofRule name inner semicolon).flatMap Piece.text)

/-- The name and the semicolon of a rule are under no fix of it. -/
theorem Rule.StandsIn.not_holds (h : r.StandsIn name inner semicolon) {f : Fix}
    (hf : f ∈ r.body.fixes) : f.span.holds r.mark.start = false ∧
      f.span.holds (r.mark.start + Text.size name.text + Text.size (inner.flatMap Piece.text))
        = false := by
  have htokens : Piece.tokensAt r.mark.start (Piece.ofRule name inner semicolon)
      = ⟨name.kind, ⟨r.mark.start, r.mark.start + Text.size name.text⟩, name.text⟩ ::
        (Piece.tokensAt (r.mark.start + Text.size name.text) inner ++
          Piece.tokensAt (r.mark.start + Text.size name.text + Text.size (inner.flatMap Piece.text))
            [Piece.lexeme semicolon]) := by
    rw [← Piece.tokensAt_append]
    rfl
  obtain ⟨as, us, bs, hsplit, has, hbs, hbody⟩ := h.derives.body
  have hlegible := h.legible
  rw [hsplit] at hlegible htokens
  have hrewrites := fixes_rewrite.expressions r.body us hlegible.left.right hbody f hf
  constructor
  · obtain ⟨a, as, rfl⟩ := List.exists_cons_of_ne_nil has
    have hfree := hrewrites.not_holds_left hlegible.left.scanned a List.mem_cons_self
    rw [(List.cons.inj htokens).1] at hfree
    exact hfree
  · obtain ⟨bs, b, rfl⟩ : ∃ cs c, bs = cs ++ [c] := ⟨_, _, (List.dropLast_concat_getLast hbs).symm⟩
    have hscanned := hlegible.scanned
    rw [List.append_assoc] at hscanned
    have hfree := hrewrites.not_holds_right hscanned.right b (by simp)
    have hlast := congrArg List.getLast? htokens
    rw [← List.append_assoc, List.getLast?_concat, ← List.cons_append] at hlast
    rw [Option.some.inj (hlast.trans List.getLast?_concat)] at hfree
    exact hfree

section Around

variable (h : r.StandsIn name inner semicolon) (haround : ∀ f ∈ fixes, f.Around r)

include h haround

/-- Fixes around a rule that are over tokens of it are fixes of its body. -/
theorem Rule.StandsIn.within : Within fixes r.body.fixes
    (Piece.tokensAt r.mark.start (Piece.ofRule name inner semicolon)) := by
  have hstop := h.stop
  intro f hf
  obtain ⟨-, hbefore | hbody | hbehind⟩ := haround f hf
  · refine Or.inr fun t ht => Span.not_holds_iff.mpr (Or.inr ?_)
    exact hbefore.trans (Piece.le_of_mem_tokensAt ht)
  · exact Or.inl hbody
  · refine Or.inr fun t ht => Span.not_holds_iff.mpr (Or.inl ?_)
    have hlast := Piece.stop_le_of_mem_tokensAt ht
    have hforward := h.legible.scanned.forward t ht
    omega

/-- A fix that starts in the rule starts where a token of it does. -/
theorem Rule.StandsIn.starts {f : Fix} (hf : f ∈ fixes) (hlo : r.mark.start ≤ f.span.start)
    (hhi : f.span.start
      < r.mark.start + Text.size ((Piece.ofRule name inner semicolon).flatMap Piece.text)) :
    ∃ t ∈ Piece.tokensAt r.mark.start (Piece.ofRule name inner semicolon),
      t.span.start = f.span.start := by
  have hstop := h.stop
  obtain ⟨hforward, hbefore | hbody | hbehind⟩ := haround f hf
  · omega
  · obtain ⟨us, -, hne, hus, hspan, -, -⟩ := h.derives.rewrites h.legible hbody
    exact ⟨us.head hne, hus.subset (List.head_mem hne), by rw [hspan, Span.over_start hne]⟩
  · omega

/-- The name and the semicolon of a rule stay. -/
theorem Rule.StandsIn.relaid_ofRule :
    Piece.relaid fixes writing r.mark.start (Piece.ofRule name inner semicolon)
      = Piece.ofRule name (Piece.relaid fixes writing (r.mark.start + Text.size name.text) inner)
          semicolon := by
  have hkept : ∀ (offset : Nat) (l : Lexeme), r.mark.start ≤ offset → offset < r.mark.stop →
      (∀ f ∈ r.body.fixes, f.span.holds offset = false) →
      EbnfKit.edited fixes writing offset [Piece.lexeme l] = [Piece.lexeme l] := by
    intro offset l hlo hhi hbody
    refine edited_untouched fun f hf => ?_
    obtain ⟨hforward, hbefore | hmem | hbehind⟩ := haround f hf
    · exact Span.not_holds_iff.mpr (Or.inr (by omega))
    · exact hbody f hmem
    · exact Span.not_holds_iff.mpr (Or.inl (by omega))
  have hstop := h.stop
  obtain ⟨hname, hinner⟩ := List.forall_mem_cons.mp h.valid
  have hlast := List.forall_mem_singleton.mp (List.forall_mem_append.mp hinner).2
  have hfirst := Text.size_pos hname.text_ne_nil
  have hsemicolon := Text.size_pos hlast.text_ne_nil
  rw [Piece.ofRule, List.flatMap_cons, List.flatMap_append, List.flatMap_singleton,
    Text.size_append, Text.size_append] at hstop
  simp only [Piece.text] at hstop hfirst hsemicolon
  have hfront := hkept r.mark.start name (Nat.le_refl _) (by omega)
    fun f hf => (h.not_holds hf).1
  have hback := hkept (r.mark.start + Text.size name.text + Text.size (inner.flatMap Piece.text))
    semicolon (by omega) (by omega) fun f hf => (h.not_holds hf).2
  rw [Piece.relaid, Piece.ofRule, Piece.editAll, hfront, Piece.editAll_append, Piece.editAll]
  simp only [Piece.text]
  rw [hback]
  rfl

/-- A rule that stays is laid out anew between its name and its semicolon. -/
theorem Rule.StandsIn.relaid (hordered : Ordered fixes)
    (hlaidOut : ∀ f ∈ fixes, f.LaidOut (writing f)) :
    ∃ inner' r', Piece.relaid fixes writing r.mark.start (Piece.ofRule name inner semicolon)
        = Piece.ofRule name inner' semicolon ∧
      Rule.Derives .bare ((Piece.ofRule name inner' semicolon).filterMap Piece.lexeme?) r' ∧
      r.Revised fixes r' := by
  obtain ⟨r', hderives, hrevised⟩ :=
    Rule.edited hordered h.legible h.derives (h.within haround)
  have hlayout : Piece.relaid fixes writing r.mark.start (Piece.ofRule name inner semicolon) = _ :=
    h.relaid_ofRule haround
  refine ⟨_, r', hlayout, ?_, hrevised⟩
  rw [← hlayout, Piece.filterMap_relaid hlaidOut,
    Piece.editAll_lexemes h.valid fun f hf => h.starts haround hf]
  exact hderives

end Around

end Stay

/-- What relates to the same things is related. -/
theorem forall₂_comp {α β γ : Type} {p : α → β → Prop} {q : β → γ → Prop} {o : α → γ → Prop}
    (h : ∀ a b c, p a b → q b c → o a c) {as : List α} {bs : List β} {cs : List γ}
    (hp : List.Forall₂ p as bs) : List.Forall₂ q bs cs → List.Forall₂ o as cs := by
  induction hp generalizing cs with
  | nil => exact fun hq => by cases hq; exact .nil
  | cons hab _ ih =>
      intro hq
      cases hq with
      | cons hbc hrest => exact .cons (h _ _ _ hab hbc) (ih hrest)

/-! ## Rules that are behind each other -/

/-- A rule that stays, with the rules right in front of it that go, and the text above it once
    these are cut out. -/
structure Standing where
  rule : Rule Span
  gone : List (Rule Span)
  above : Text

namespace Grammar

/-- The rules that stay, of those behind the offset, where `gone` and `left` are the rules that
    have been cut out since the last of them and the text that has been left. -/
def standingFrom (g : Grammar) (offset : Nat) (gone : List (Rule Span)) (left : Text) :
    List (Rule Span) → List Standing
  | [] => []
  | r :: rs =>
      let above := left ++ (g.source.slice? ⟨offset, r.mark.start⟩).getD []
      if g.Reaches r.name then ⟨r, gone, above⟩ :: g.standingFrom r.mark.stop [] [] rs
      else g.standingFrom (Fix.removeRule g.source r).span.stop (gone ++ [r]) above rs

/-- The rules that stay, each with what is above it. -/
def standing (g : Grammar) : List Standing :=
  g.standingFrom 0 [] [] g.rules

/-- The rules are those that stay, each behind those that go in front of it, and others that
    go. -/
theorem standingFrom_split (g : Grammar) (rs : List (Rule Span)) (offset : Nat)
    (gone : List (Rule Span)) (left : Text) (hgone : ∀ r ∈ gone, ¬g.Reaches r.name) :
    ∃ last, gone ++ rs
        = ((g.standingFrom offset gone left rs).flatMap fun st => st.gone ++ [st.rule]) ++ last ∧
      (∀ st ∈ g.standingFrom offset gone left rs,
        g.Reaches st.rule.name ∧ ∀ r ∈ st.gone, ¬g.Reaches r.name) ∧
      ∀ r ∈ last, ¬g.Reaches r.name := by
  induction rs generalizing offset gone left with
  | nil => exact ⟨gone, List.append_nil gone, List.forall_mem_nil _, hgone⟩
  | cons r rs ih =>
      rw [standingFrom]
      by_cases hneeded : g.Reaches r.name
      · obtain ⟨last, hsplit, hstanding, hlast⟩ :=
          ih r.mark.stop [] [] (List.forall_mem_nil _)
        rw [if_pos hneeded]
        refine ⟨last, ?_, List.forall_mem_cons.mpr ⟨⟨hneeded, hgone⟩, hstanding⟩, hlast⟩
        rw [List.flatMap_cons, List.append_assoc, ← hsplit, List.append_assoc]
        rfl
      · obtain ⟨last, hsplit, hrest⟩ := ih (Fix.removeRule g.source r).span.stop (gone ++ [r])
          (left ++ (g.source.slice? ⟨offset, r.mark.start⟩).getD [])
          (List.forall_mem_append.mpr ⟨hgone, List.forall_mem_singleton.mpr hneeded⟩)
        rw [List.append_assoc] at hsplit
        rw [if_neg hneeded]
        exact ⟨last, hsplit, hrest⟩

/-- A fix that concerns a rule starts in it, and stops in it unless it removes the rule. -/
theorem bounds_of_concerns (h : (parse s).diagnostics = []) {ps : List Piece} (hs : Layout s ps)
    {r : Rule Span} (hr : r ∈ (parse s).rules) {f : Fix} (hf : f.Concerns s r) :
    r.mark.start ≤ f.span.start ∧ f.span.start < f.span.stop ∧
      (f = Fix.removeRule s r ∨ f ∈ r.body.fixes ∧ f.span.stop ≤ r.mark.stop) := by
  rcases hf with rfl | hf
  · obtain ⟨hstart, hforward, hstop, -⟩ := span_of_removal h hs hr
    exact ⟨hstart.ge, by omega, Or.inl rfl⟩
  · obtain ⟨hstart, hforward, hstop⟩ := bounds_of_body_fix h hr hf
    exact ⟨hstart.le, hforward, Or.inr ⟨hf, hstop⟩⟩

theorem Round.concerns (hround : Round s fixes s') {f : Fix} (hf : f ∈ fixes) :
    ∃ r ∈ (parse s).rules, f.Concerns s r := by
  rcases hround.serves f hf with ⟨r, hr, -, rfl⟩ | ⟨r, hr, hbody⟩
  · exact ⟨r, hr, Or.inl (by rw [source_parse])⟩
  · exact ⟨r, hr, Or.inr hbody⟩

/-- How far the rules of a text have been read: up to the offset, that is, up to `front`, which
    ends in a semicolon, and the blanks `w` that the last removal takes.  Since the last rule
    that stays, the rules `gone` have been cut out and the trivia `left` have stayed. -/
structure ReadUpTo (s : Text) (offset : Nat) (front : List Piece) (w : Text) (ps left : List Piece)
    (gone : List (Rule Span)) : Prop where
  layout : Layout s (front ++ (w.map .blank ++ ps))
  offset : offset = Text.size (front.flatMap Piece.text) + Text.size w
  shut : Piece.Shut front
  white : ∀ c ∈ w, isWhiteSpace c = true
  trivia : Piece.Trivia left
  fresh : gone = [] → w = [] ∧ left = []

namespace ReadUpTo

variable {front ps left gap inner rest : List Piece} {w : Text} {gone : List (Rule Span)}
  {name semicolon : Lexeme} {r : Rule Span} {offset : Nat}

theorem valid (hread : ReadUpTo s offset front w ps left gone) : ∀ p ∈ ps, p.Valid :=
  (List.forall_mem_append.mp (List.forall_mem_append.mp hread.layout.valid).2).2

/-- The tokens that have not been read are the last ones. -/
theorem suffix (hread : ReadUpTo s offset front w ps left gone) :
    Piece.tokensAt offset ps <:+ significant s := by
  rw [← hread.layout.tokens, Piece.tokensAt_append, Piece.tokensAt_append, Piece.text_blanks,
    Nat.zero_add, ← hread.offset, ← List.append_assoc]
  exact List.suffix_append _ _

section Next

variable
  (hread : ReadUpTo s offset front w (gap ++ (Piece.ofRule name inner semicolon ++ rest)) left gone)
  (hbehind : r.StandsBehind offset gap name inner semicolon)

include hread hbehind

/-- What the comment of the next rule becomes. -/
theorem comment? (h : (parse s).diagnostics = []) (hr : r ∈ (parse s).rules) :
    (gone = [] → (parse s).comment? r = directlyAbove ((left ++ gap).flatMap Piece.text)) ∧
      ∀ c, (parse s).comment? r = some c →
        directlyAbove ((left ++ gap).flatMap Piece.text) = some c := by
  have hpieces : front ++ (w.map .blank ++ (gap ++ (Piece.ofRule name inner semicolon ++ rest)))
      = front ++ ((w.map .blank ++ gap) ++ Piece.lexeme name
        :: (inner ++ Piece.lexeme semicolon :: rest)) := by
    simp [Piece.ofRule]
  have hlayout := hread.layout
  rw [hpieces] at hlayout
  have hfound : (parse s).comment? r = directlyAbove (w ++ gap.flatMap Piece.text) := by
    rw [comment?_eq_directlyAbove hlayout (loose_of_clean h hlayout) hread.shut
      ((Piece.trivia_blanks hread.white).append hbehind.trivia) hr, List.flatMap_append,
      Piece.text_blanks]
    rw [hbehind.start, hread.offset, List.flatMap_append, List.flatMap_append, Text.size_append,
      Text.size_append, Piece.text_blanks, Nat.add_assoc]
  rw [hfound, List.flatMap_append]
  constructor
  · intro hgone
    obtain ⟨rfl, rfl⟩ := hread.fresh hgone
    rfl
  · exact fun c => directlyAbove_of_some hread.white hread.trivia hbehind.trivia

/-- The text above the next rule. -/
theorem above_next :
    left.flatMap Piece.text ++ ((parse s).source.slice? ⟨offset, r.mark.start⟩).getD []
      = (left ++ gap).flatMap Piece.text := by
  have hsize : offset = Text.size (front.flatMap Piece.text ++ w) := by
    rw [Text.size_append, hread.offset]
  have hslice :
      (parse s).source.slice? ⟨offset, r.mark.start⟩ = some (gap.flatMap Piece.text) := by
    rw [source_parse, ← hread.layout.text, hbehind.start, hsize, List.flatMap_append,
      List.flatMap_append, List.flatMap_append, Piece.text_blanks, ← List.append_assoc]
    exact Text.slice?_append _ _ _
  rw [hslice, List.flatMap_append]
  rfl

theorem stop_eq :
    r.mark.stop = Text.size ((front ++ (w.map Piece.blank
      ++ (gap ++ Piece.ofRule name inner semicolon))).flatMap Piece.text) := by
  rw [hbehind.stop, hbehind.start, hread.offset]
  simp only [List.flatMap_append, Text.size_append, Piece.text_blanks]
  omega

/-- Behind a rule that stays everything begins anew. -/
theorem keep :
    ReadUpTo s r.mark.stop (front ++ (w.map .blank ++ (gap ++ Piece.ofRule name inner semicolon)))
      [] rest [] [] := by
  refine ⟨?_, hread.stop_eq hbehind, ?_, List.forall_mem_nil _, ⟨List.forall_mem_nil _, rfl⟩,
    fun _ => ⟨rfl, rfl⟩⟩
  · have hlayout := hread.layout
    simpa using hlayout
  · rw [← List.append_assoc, ← List.append_assoc]
    exact Piece.shut_ofRule hbehind.ends _ _

/-- A rule that is cut out takes blanks, and leaves what is above it. -/
theorem remove (h : (parse s).diagnostics = []) (hr : r ∈ (parse s).rules) :
    ∃ v after, rest = v.map .blank ++ after ∧
      (Fix.removeRule s r).span = ⟨r.mark.start, r.mark.stop + Text.size v⟩ ∧
      ReadUpTo s (Fix.removeRule s r).span.stop
        (front ++ (w.map .blank ++ (gap ++ Piece.ofRule name inner semicolon))) v after
        (left ++ gap) (gone ++ [r]) := by
  have hend := hread.stop_eq hbehind
  obtain ⟨hlayout, -, -, -, hleft, -⟩ := hread
  obtain ⟨before, v, after, hsplit, hbefore, hspan⟩ :=
    Fix.removeRule_blanks hlayout (isBoundary_rule_stop h hlayout hr)
  have hregroup : front ++ (w.map .blank ++ (gap ++ (Piece.ofRule name inner semicolon ++ rest)))
      = (front ++ (w.map .blank ++ (gap ++ Piece.ofRule name inner semicolon))) ++ rest := by
    simp
  rw [hregroup] at hsplit hlayout
  obtain ⟨rfl, rfl⟩ := Piece.append_inj_of_size hsplit hlayout.valid (hend.symm.trans hbefore.symm)
  obtain ⟨hvalid, -⟩ :=
    List.forall_mem_append.mp (List.forall_mem_append.mp hlayout.valid).2
  refine ⟨v, after, rfl, hspan, hlayout, ?_, ?_, List.forall_mem_map.mp hvalid,
    hleft.append hbehind.trivia, fun hnone => absurd hnone (by simp)⟩
  · rw [hspan, ← hend]
  · rw [← List.append_assoc, ← List.append_assoc]
    exact Piece.shut_ofRule hbehind.ends _ _

end Next

end ReadUpTo

/-! ## A round -/

section Round

variable {ps rest : List Piece} {inner : List Piece} {name semicolon : Lexeme} {r : Rule Span}
  {us : List Token}

/-- The fixes of a round go around a rule that stays, or into its body. -/
theorem Round.around (h : (parse s).diagnostics = []) (hs : Layout s ps) (hround : Round s fixes s')
    (hr : r ∈ (parse s).rules) (hneeded : (parse s).Reaches r.name) {f : Fix} (hf : f ∈ fixes) :
    f.Around r := by
  obtain ⟨q, hq, hconcerns⟩ := hround.concerns hf
  obtain ⟨hstart, hforward, hstop⟩ := bounds_of_concerns h hs hq hconcerns
  refine ⟨hforward, ?_⟩
  rcases pairwise_cases ((derives_of_clean h).apart (significant_scanned s)) hq hr with
    rfl | hbefore | hbehind
  · rcases hstop with rfl | ⟨hbody, -⟩
    · exact absurd hneeded ((removal_mem_iff h hs hround.serves hround.removes hr).mp hf)
    · exact Or.inr (Or.inl hbody)
  · refine Or.inl ?_
    rcases hstop with rfl | ⟨-, hstop⟩
    · -- the removal of a rule in front stops before the name of this one
      obtain ⟨ts, hts, hderives⟩ := (derives_of_clean h).sublist hr
      have hne := Parser.rule_ne_nil hderives
      have hmark := hderives.mark_eq
      rw [hmark, Span.over_start hne] at hbefore ⊢
      exact (span_of_removal h hs hq).2.2.2.2 _ (hts.subset (List.head_mem hne)) hbefore
    · omega
  · exact Or.inr (Or.inr (by omega))

/-- A rule that is cut out leaves nothing, with the blanks that go with it. -/
theorem Round.relaid_removed (hround : Round s fixes s')
    (hlaidOut : ∀ f ∈ fixes, f.LaidOut (writing f)) (hremoved : Fix.removeRule s r ∈ fixes)
    {qs : List Piece} (hqs : ∀ p ∈ qs, p.Valid) (hne : qs ≠ [])
    (hspan : (Fix.removeRule s r).span
      = ⟨r.mark.start, r.mark.start + Text.size (qs.flatMap Piece.text)⟩) :
    Piece.relaid fixes writing r.mark.start qs = [] := by
  have hstart : (Fix.removeRule s r).span.start = r.mark.start := by rw [hspan]
  obtain ⟨hvalid, -, htext, -⟩ := hlaidOut _ hremoved
  have hnothing : writing (Fix.removeRule s r) = [] :=
    Piece.eq_nil_of_size hvalid (congrArg Text.size htext)
  rw [← hnothing, ← hstart]
  exact Piece.editAll_replaced hround.ordered hremoved hne (by rw [hspan]) hqs

end Round

/-- The entry is the rule, and above it there is what shows of the text above the rule. -/
structure Shows (g : Grammar) (st : Standing) (e : Entry) : Prop where
  name : e.rule.name = st.rule.name
  gap : e.gap.flatMap Piece.text = st.above
  same : st.gone = [] → g.comment? st.rule = directlyAbove st.above
  keeps : ∀ c, g.comment? st.rule = some c → directlyAbove st.above = some c

/-- What the fixes leave from the offset on is entries for the rules that stay, and trivia. -/
def LeavesEntries (s : Text) (fixes : List Fix) (writing : Fix → List Piece) (offset : Nat)
    (ps left : List Piece) (gone rs : List (Rule Span)) : Prop :=
  ∃ es tail,
    left ++ Piece.relaid fixes writing offset ps = es.flatMap Entry.pieces ++ tail ∧
    Piece.Trivia tail ∧ (∀ e ∈ es, e.Sound) ∧
    List.Forall₂ (parse s).Shows
      ((parse s).standingFrom offset gone (left.flatMap Piece.text) rs) es

section Step

variable {offset : Nat} {front left gap inner rest : List Piece} {w : Text}
  {gone rs : List (Rule Span)} {name semicolon : Lexeme} {r : Rule Span}
  (h : (parse s).diagnostics = []) (hround : Round s fixes s')
  (hlaidOut : ∀ f ∈ fixes, f.LaidOut (writing f))
  (hread : ReadUpTo s offset front w (gap ++ (Piece.ofRule name inner semicolon ++ rest)) left gone)
  (hbehind : r.StandsBehind offset gap name inner semicolon)
  (hrules : (r :: rs).Sublist (parse s).rules)
  (hscope : ∀ f ∈ fixes, f.span.stop ≤ offset ∨ ∃ q ∈ r :: rs, f.Concerns s q)

include h hread hbehind hrules hscope

/-- The trivia above the next rule stay. -/
theorem ReadUpTo.relaid_gap : Piece.relaid fixes writing offset gap = gap := by
  have hlater := List.pairwise_cons.mp
    (((derives_of_clean h).apart (significant_scanned s)).sublist hrules)
  refine Piece.relaid_free hbehind.trivia.1 fun f hf => ?_
  rw [← hbehind.start]
  rcases hscope f hf with hstop | ⟨q, hq, hconcerns⟩
  · exact Or.inl hstop
  · have hfrom := (bounds_of_concerns h hread.layout (hrules.subset hq) hconcerns).1
    rcases List.mem_cons.mp hq with rfl | hq
    · exact Or.inr hfrom
    · have hnext := hlater.1 q hq
      have hforward :=
        (span_of_removal h hread.layout (hrules.subset List.mem_cons_self)).2.1
      exact Or.inr (by omega)

/-- Behind the next rule there are the fixes of the others, and what goes with the rule. -/
theorem ReadUpTo.scope_behind {f : Fix} (hf : f ∈ fixes) :
    f = Fix.removeRule s r ∨ f.span.stop ≤ r.mark.stop ∨ ∃ q ∈ rs, f.Concerns s q := by
  have hr := hrules.subset List.mem_cons_self
  rcases hscope f hf with hstop | ⟨q, hq, hconcerns⟩
  · have hforward := (span_of_removal h hread.layout hr).2.1
    have hstart := hbehind.start
    exact Or.inr (Or.inl (by omega))
  · rcases List.mem_cons.mp hq with rfl | hq
    · exact (bounds_of_concerns h hread.layout hr hconcerns).2.2.imp_right
        fun hbody => Or.inl hbody.2
    · exact Or.inr (Or.inr ⟨q, hq, hconcerns⟩)

include hround hlaidOut

/-- A rule that stays is an entry with what has been left above it. -/
theorem Round.leaves_kept (hneeded : (parse s).Reaches r.name)
    (hstands : r.StandsIn name inner semicolon)
    (hrest : LeavesEntries s fixes writing r.mark.stop rest [] [] rs) :
    LeavesEntries s fixes writing offset (gap ++ (Piece.ofRule name inner semicolon ++ rest)) left
      gone (r :: rs) := by
  have hr := hrules.subset List.mem_cons_self
  obtain ⟨inner', r', hrelaid, hderives, hrevised⟩ := hstands.relaid
    (fun f hf => hround.around h hread.layout hr hneeded hf) hround.ordered hlaidOut
  obtain ⟨es, tail, hsplit, htail, hsound, hshows⟩ := hrest
  obtain ⟨hsame, hkeeps⟩ := hread.comment? hbehind h hr
  have hfree : Piece.relaid fixes writing offset gap = gap :=
    hread.relaid_gap h hbehind hrules hscope
  have hentry : (Entry.mk (left ++ gap) name inner' semicolon r').Sound :=
    ⟨hread.trivia.append hbehind.trivia, hbehind.ends, hderives⟩
  have habove := hread.above_next hbehind
  rw [LeavesEntries, standingFrom, if_pos hneeded, Piece.relaid, Piece.editAll_append,
    Piece.editAll_append, ← hbehind.start, ← hbehind.stop]
  rw [Piece.relaid] at hfree hrelaid hsplit
  refine ⟨_ :: es, tail, ?_, htail, List.forall_mem_cons.mpr ⟨hentry, hsound⟩,
    .cons ⟨hrevised.name, habove.symm, habove ▸ hsame, habove ▸ hkeeps⟩ hshows⟩
  rw [hfree, hrelaid, List.flatMap_cons, List.append_assoc _ _ tail, ← hsplit]
  simp [Entry.pieces, Entry.below]

/-- A rule that goes leaves what has been left above it to the next one. -/
theorem Round.leaves_removed {v : Text} {after : List Piece} (hunneeded : ¬(parse s).Reaches r.name)
    (hafter : rest = v.map .blank ++ after)
    (hspan : (Fix.removeRule s r).span = ⟨r.mark.start, r.mark.stop + Text.size v⟩)
    (hrest : LeavesEntries s fixes writing (Fix.removeRule s r).span.stop after (left ++ gap)
      (gone ++ [r]) rs) :
    LeavesEntries s fixes writing offset (gap ++ (Piece.ofRule name inner semicolon ++ rest)) left
      gone (r :: rs) := by
  have hr := hrules.subset List.mem_cons_self
  have hfree : Piece.relaid fixes writing offset gap = gap :=
    hread.relaid_gap h hbehind hrules hscope
  have habove := hread.above_next hbehind
  subst hafter
  have hvalid := (List.forall_mem_append.mp hread.valid).2
  rw [← List.append_assoc] at hvalid
  have hsize : r.mark.stop + Text.size v = r.mark.start + Text.size
      ((Piece.ofRule name inner semicolon ++ v.map Piece.blank).flatMap Piece.text) := by
    rw [List.flatMap_append, Text.size_append, Piece.text_blanks, ← Nat.add_assoc, ← hbehind.stop]
  have hcut := hround.relaid_removed hlaidOut (hround.removes r hr hunneeded)
    (List.forall_mem_append.mp hvalid).1 (by simp [Piece.ofRule]) (hsize ▸ hspan)
  obtain ⟨es, tail, hsplit, hothers⟩ := hrest
  rw [hspan] at hsplit hothers
  rw [LeavesEntries, standingFrom, if_neg hunneeded, habove, source_parse, hspan, Piece.relaid,
    ← List.append_assoc (Piece.ofRule _ _ _), Piece.editAll_append, ← hbehind.start,
    Piece.editAll_append, ← hsize]
  rw [Piece.relaid] at hfree hcut hsplit
  rw [hfree, hcut, List.nil_append, ← List.append_assoc]
  exact ⟨es, tail, hsplit, hothers⟩

end Step

/-- **What a round leaves is entries**, one for each rule that stays, by induction on the
    rules. -/
theorem Round.leaves (h : (parse s).diagnostics = []) (hround : Round s fixes s')
    (hlaidOut : ∀ f ∈ fixes, f.LaidOut (writing f)) : ∀ (rs : List (Rule Span)) {offset : Nat}
    {front ps left : List Piece} {w : Text} {gone : List (Rule Span)},
    ReadUpTo s offset front w ps left gone →
      Rule.DerivesAll .placed (Piece.tokensAt offset ps) rs → rs.Sublist (parse s).rules →
      (∀ f ∈ fixes, f.span.stop ≤ offset ∨ ∃ r ∈ rs, f.Concerns s r) →
      LeavesEntries s fixes writing offset ps left gone rs := by
  intro rs
  induction rs with
  | nil =>
      intro offset front ps left w gone hread hderives _ hscope
      generalize htokens : Piece.tokensAt offset ps = ts at hderives
      cases hderives
      have hps : Piece.Trivia ps := by
        refine ⟨hread.valid, ?_⟩
        rw [← Piece.map_lexeme_tokensAt offset, htokens, List.map_nil]
      rw [LeavesEntries, Piece.relaid_free hps.1 fun f hf => Or.inl ?_]
      · exact ⟨[], left ++ ps, rfl, hread.trivia.append hps, List.forall_mem_nil _, .nil⟩
      · rcases hscope f hf with hstop | ⟨r, hr, -⟩
        · exact hstop
        · cases hr
  | cons r rs ih =>
      intro offset front ps left w gone hread hderives hrules hscope
      generalize htokens : Piece.tokensAt offset ps = ts at hderives
      cases hderives with
      | @cons us _ vs _ hr hrs =>
          have hlegible := (legible_of_clean h).sublist (htokens ▸ hread.suffix).sublist
          obtain ⟨gap, name, inner, semicolon, rest, rfl, hbehind, rfl, rfl⟩ :=
            hr.split hread.valid htokens
          have hmem : r ∈ (parse s).rules := hrules.subset List.mem_cons_self
          have hlater := (List.sublist_cons_self r rs).trans hrules
          have hbeyond := fun f (hf : f ∈ fixes) =>
            hread.scope_behind h hbehind hrules hscope hf
          by_cases hneeded : (parse s).Reaches r.name
          · have hstands : r.StandsIn name inner semicolon :=
              ⟨(List.forall_mem_append.mp (List.forall_mem_append.mp hread.valid).2).1,
                hlegible.left, hr, hbehind.stop⟩
            have hkept : Fix.removeRule s r ∉ fixes := fun hf =>
              (removal_mem_iff h hread.layout hround.serves hround.removes hmem).mp hf hneeded
            refine hround.leaves_kept h hlaidOut hread hbehind hrules hscope hneeded hstands ?_
            refine ih (hread.keep hbehind) hrs hlater fun f hf => ?_
            exact (hbeyond f hf).resolve_left fun heq => hkept (heq ▸ hf)
          · obtain ⟨v, after, hafter, hspan, hnext⟩ := hread.remove hbehind h hmem
            refine hround.leaves_removed h hlaidOut hread hbehind hrules hscope hneeded hafter hspan ?_
            have hend : (Fix.removeRule s r).span.stop = r.mark.stop + Text.size v := by rw [hspan]
            rw [hafter, Piece.tokensAt_append, Piece.tokensAt_blanks, List.nil_append,
              Piece.text_blanks, ← hend] at hrs
            refine ih hnext hrs hlater fun f hf => ?_
            rcases hbeyond f hf with rfl | hstop | hothers
            · exact Or.inl (Nat.le_refl _)
            · exact Or.inl (by omega)
            · exact Or.inr hothers

/-- The rule of another grammar has the comment that shows above the rule that stays, which is
    the one that it had, if it had one or if nothing goes in front of it. -/
structure Documents (g g' : Grammar) (st : Standing) (r' : Rule Span) : Prop where
  name : r'.name = st.rule.name
  shows : g'.comment? r' = directlyAbove st.above
  keeps : ∀ c, g.comment? st.rule = some c → g'.comment? r' = some c
  same : st.gone = [] → g'.comment? r' = g.comment? st.rule

/-- **A round keeps documentation**: if the text that comes out has no syntax errors, each rule
    that stays has the comment it had.  One without a comment gets none either, unless rules
    right in front of it go: then it has the comment that shows above it without them. -/
theorem round_keeps_documentation (s : Text) (h : (parse s).diagnostics = []) :
    (∃ last, (parse s).rules
        = ((parse s).standing.flatMap fun st => st.gone ++ [st.rule]) ++ last ∧
      (∀ st ∈ (parse s).standing, (parse s).Reaches st.rule.name ∧
        ∀ r ∈ st.gone, ¬(parse s).Reaches r.name) ∧
      ∀ r ∈ last, ¬(parse s).Reaches r.name) ∧
      ∃ fixes s', Fix.offerAll (parse s) (parse s).analyze = .ok fixes ∧
        Fix.apply s fixes = .ok s' ∧
        ((parse s').diagnostics = [] →
          List.Forall₂ ((parse s).Documents (parse s')) (parse s).standing (parse s').rules) := by
  obtain ⟨ps, hs⟩ := (finished_of_clean h).layout
  obtain ⟨fixes, s', hoffer, happly, hround⟩ := exists_round h
  obtain ⟨writing, hrelays⟩ := hround.exists_relays h hs happly
  refine ⟨standingFrom_split _ _ 0 [] [] (List.forall_mem_nil _), fixes, s', hoffer, happly,
    fun hclean => ?_⟩
  have hstart : ReadUpTo s 0 [] [] ps [] [] :=
    ⟨hs, rfl, (fun _ hp => nomatch hp), List.forall_mem_nil _, ⟨List.forall_mem_nil _, rfl⟩,
      fun _ => ⟨rfl, rfl⟩⟩
  obtain ⟨es, tail, hsplit, htail, hsound, hshows⟩ := hround.leaves h hrelays.laidOut _
    hstart (hs.tokens ▸ derives_of_clean h) (List.Sublist.refl _)
    fun f hf => Or.inr (hround.concerns hf)
  have hlayout := Layout.of_loose hrelays.valid hrelays.loose
  have hloose := hrelays.loose
  rw [hrelays.text] at hlayout
  rw [List.nil_append] at hsplit
  rw [hsplit] at hlayout hloose
  refine forall₂_comp ?_ hshows (entries_read hsound htail hlayout hloose hclean)
  intro st e r' hst hr'
  have hname : r'.name = e.rule.name := congrArg Rule.name hr'.1
  have hshown : (parse s').comment? r' = directlyAbove st.above := by rw [hr'.2, hst.gap]
  exact ⟨hname.trans hst.name, hshown, fun c hc => hshown.trans (hst.keeps c hc),
    fun hgone => hshown.trans (hst.same hgone).symm⟩

/-- The second rule goes, and the third, which had no comment, has its comment then. -/
theorem round_keeps_documentation_three_rules :
    (parse "(*0*)\na = b ;\n(*1*)\nc = 'x' ;\nb = 'y' ;\n".toList).diagnostics = [] ∧
      ∃ fixes, Fix.offerAll (parse "(*0*)\na = b ;\n(*1*)\nc = 'x' ;\nb = 'y' ;\n".toList)
          (parse "(*0*)\na = b ;\n(*1*)\nc = 'x' ;\nb = 'y' ;\n".toList).analyze = .ok fixes ∧
        Fix.apply "(*0*)\na = b ;\n(*1*)\nc = 'x' ;\nb = 'y' ;\n".toList fixes
          = .ok "(*0*)\na = b ;\n(*1*)\nb = 'y' ;\n".toList ∧
        List.Forall₂ ((parse "(*0*)\na = b ;\n(*1*)\nc = 'x' ;\nb = 'y' ;\n".toList).Documents
            (parse "(*0*)\na = b ;\n(*1*)\nb = 'y' ;\n".toList))
          (parse "(*0*)\na = b ;\n(*1*)\nc = 'x' ;\nb = 'y' ;\n".toList).standing
          (parse "(*0*)\na = b ;\n(*1*)\nb = 'y' ;\n".toList).rules := by
  have hclean : (parse "(*0*)\na = b ;\n(*1*)\nc = 'x' ;\nb = 'y' ;\n".toList).diagnostics
      = [] := by
    decide +kernel
  have hclean' : (parse "(*0*)\na = b ;\n(*1*)\nb = 'y' ;\n".toList).diagnostics = [] := by
    decide +kernel
  have hround : (Fix.round (parse "(*0*)\na = b ;\n(*1*)\nc = 'x' ;\nb = 'y' ;\n".toList)
      (parse "(*0*)\na = b ;\n(*1*)\nc = 'x' ;\nb = 'y' ;\n".toList).analyze).toOption.map
        Prod.snd = some "(*0*)\na = b ;\n(*1*)\nb = 'y' ;\n".toList := by
    decide +kernel
  obtain ⟨-, fixes, s', hoffer, happly, hdocuments⟩ := round_keeps_documentation _ hclean
  have hsource := happly
  rw [← source_parse "(*0*)\na = b ;\n(*1*)\nc = 'x' ;\nb = 'y' ;\n".toList] at hsource
  rw [round_eq_ok hoffer hsource] at hround
  cases hround
  exact ⟨hclean, fixes, hoffer, happly, hdocuments hclean'⟩

/-- So a rule that stays may have another comment than before. -/
theorem round_changes_documentation :
    (parse "(*0*)\na = b ;\n(*1*)\nc = 'x' ;\nb = 'y' ;\n".toList).diagnostics = [] ∧
      (Fix.round (parse "(*0*)\na = b ;\n(*1*)\nc = 'x' ;\nb = 'y' ;\n".toList)
        (parse "(*0*)\na = b ;\n(*1*)\nc = 'x' ;\nb = 'y' ;\n".toList).analyze).toOption.map
          Prod.snd = some "(*0*)\na = b ;\n(*1*)\nb = 'y' ;\n".toList ∧
      (parse "(*0*)\na = b ;\n(*1*)\nb = 'y' ;\n".toList).diagnostics = [] ∧
      ((parse "(*0*)\na = b ;\n(*1*)\nc = 'x' ;\nb = 'y' ;\n".toList).rules.filter fun r =>
          (parse "(*0*)\na = b ;\n(*1*)\nc = 'x' ;\nb = 'y' ;\n".toList).Reaches r.name).map
            (fun r => (r.name,
              (parse "(*0*)\na = b ;\n(*1*)\nc = 'x' ;\nb = 'y' ;\n".toList).comment? r))
        = [("a".toList, some "0".toList), ("b".toList, none)] ∧
      (parse "(*0*)\na = b ;\n(*1*)\nb = 'y' ;\n".toList).rules.map (fun r => (r.name,
          (parse "(*0*)\na = b ;\n(*1*)\nb = 'y' ;\n".toList).comment? r))
        = [("a".toList, some "0".toList), ("b".toList, some "1".toList)] := by
  decide +kernel

end Grammar

end EbnfKit
