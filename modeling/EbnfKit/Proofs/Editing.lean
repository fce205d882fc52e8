import EbnfKit.Fix.Apply
import EbnfKit.Proofs.Sorting
import EbnfKit.Proofs.Spelling

/-! # Editing — fixes piece by piece

    Fixes that come in order and cover whole pieces can be applied piece by piece.  Where a
    fix starts, its replacement stands; the other pieces under it are gone; all else stays.
    They are applied from the last one to the first, which is the same as splicing from the
    front:

      fixes.foldr replace x = splice 0 x fixes
                            = the pieces of x, each edited where it stands

    The lexemes of a text are edited in the same way, token by token, and then the edited
    text writes the edited lexemes. -/

namespace EbnfKit

variable {β : Type}

/-! ## Offsets under a span -/

/-- The byte at the offset is under the span. -/
def Span.holds (s : Span) (offset : Nat) : Bool :=
  s.start ≤ offset && offset < s.stop

theorem Span.holds_iff {s : Span} {offset : Nat} :
    s.holds offset = true ↔ s.start ≤ offset ∧ offset < s.stop := by
  simp [holds]

theorem Span.not_holds_iff {s : Span} {offset : Nat} :
    s.holds offset = false ↔ offset < s.start ∨ s.stop ≤ offset := by
  rw [← Bool.not_eq_true, holds_iff]
  omega

/-- Two elements of a list in order are the same, or one comes before the other. -/
theorem pairwise_cases {α : Type} {R : α → α → Prop} {as : List α} (h : as.Pairwise R) {a b : α}
    (ha : a ∈ as) (hb : b ∈ as) : a = b ∨ R a b ∨ R b a := by
  induction h with
  | nil => cases ha
  | @cons c cs hc _ ih =>
      rcases List.mem_cons.mp ha with hac | hac
      · rcases List.mem_cons.mp hb with hbc | hbc
        · exact Or.inl (hac.trans hbc.symm)
        · exact Or.inr (Or.inl (hac ▸ hc b hbc))
      · rcases List.mem_cons.mp hb with hbc | hbc
        · exact Or.inr (Or.inr (hbc ▸ hc a hac))
        · exact ih hac hbc

/-- Each of the fixes stops before the next one starts. -/
def Ordered (fixes : List Fix) : Prop :=
  fixes.Pairwise fun f g => f.span.stop ≤ g.span.start

/-- Fixes in order are not over the same byte. -/
theorem Ordered.eq_of_holds {fixes : List Fix} (h : Ordered fixes) {f g : Fix} (hf : f ∈ fixes)
    (hg : g ∈ fixes) {offset : Nat} (hfo : f.span.holds offset = true)
    (hgo : g.span.holds offset = true) : f = g := by
  rw [Span.holds_iff] at hfo hgo
  rcases pairwise_cases h hf hg with heq | hbefore | hbehind
  · exact heq
  · omega
  · omega

/-- What stands at the offset after fixes, where `kept` stood before: `content` says what a
    fix puts there. -/
def edited (fixes : List Fix) (content : Fix → List β) (offset : Nat) (kept : List β) : List β :=
  match fixes.find? fun f => f.span.holds offset with
  | none => kept
  | some f => if f.span.start = offset then content f else []

section Edited

variable {fixes : List Fix} {content : Fix → List β} {offset : Nat} {kept : List β}

theorem edited_untouched (h : ∀ f ∈ fixes, f.span.holds offset = false) :
    edited fixes content offset kept = kept := by
  have hnone : fixes.find? (fun f => f.span.holds offset) = none := by
    rw [List.find?_eq_none]
    intro f hf
    rw [h f hf]
    decide
  rw [edited, hnone]

theorem edited_touched (hordered : Ordered fixes) {f : Fix} (hf : f ∈ fixes)
    (h : f.span.holds offset = true) :
    edited fixes content offset kept = if f.span.start = offset then content f else [] := by
  cases hfind : fixes.find? (fun g => g.span.holds offset) with
  | none =>
      have := List.find?_eq_none.mp hfind f hf
      exact absurd h this
  | some g =>
      have hg : g.span.holds offset = true := by
        simpa using List.find?_some hfind
      rw [edited, hfind, hordered.eq_of_holds (List.mem_of_find?_eq_some hfind) hf hg h]

/-- A fix that stops before the offset has no say there. -/
theorem edited_passed {f : Fix} (h : f.span.stop ≤ offset) :
    edited (f :: fixes) content offset kept = edited fixes content offset kept := by
  have hnot : f.span.holds offset = false := Span.not_holds_iff.mpr (Or.inr h)
  rw [edited, edited, List.find?_cons, hnot]

end Edited

/-! ## Boundaries between pieces -/

namespace Piece

/-- Pieces take up room. -/
theorem eq_nil_of_size {ps : List Piece} (hps : ∀ p ∈ ps, p.Valid)
    (h : Text.size (ps.flatMap text) = 0) : ps = [] := by
  cases ps with
  | nil => rfl
  | cons p ps =>
      have hsize := Text.size_pos (hps p List.mem_cons_self).text_ne_nil
      rw [List.flatMap_cons, Text.size_append] at h
      omega

/-- One of the pieces, of which the first starts at `offset`, starts or stops at `o`. -/
def IsBoundary (offset : Nat) (ps : List Piece) (o : Nat) : Prop :=
  ∃ before after, ps = before ++ after ∧ o = offset + Text.size (before.flatMap text)

theorem isBoundary_start (offset : Nat) (ps : List Piece) : IsBoundary offset ps offset :=
  ⟨[], ps, rfl, rfl⟩

theorem IsBoundary.cons {offset : Nat} {p : Piece} {ps : List Piece} {o : Nat}
    (h : IsBoundary (offset + Text.size p.text) ps o) : IsBoundary offset (p :: ps) o := by
  obtain ⟨before, after, rfl, rfl⟩ := h
  refine ⟨p :: before, after, rfl, ?_⟩
  rw [List.flatMap_cons, Text.size_append, Nat.add_assoc]

/-- A boundary behind some of the pieces is one of the others. -/
theorem IsBoundary.rest {offset : Nat} {ps qs : List Piece} {o : Nat}
    (h : IsBoundary offset (ps ++ qs) o) (hps : ∀ p ∈ ps, p.Valid)
    (ho : offset + Text.size (ps.flatMap text) ≤ o) :
    IsBoundary (offset + Text.size (ps.flatMap text)) qs o := by
  obtain ⟨before, after, heq, rfl⟩ := h
  -- it stands among the others, or not before the end of `ps` and so right there
  rcases List.append_eq_append_iff.mp heq with ⟨as, hbefore, hqs⟩ | ⟨bs, hps', hrest⟩
  · refine ⟨as, after, hqs, ?_⟩
    rw [hbefore, List.flatMap_append, Text.size_append]
    omega
  · rw [hps', List.flatMap_append, Text.size_append] at ho
    have hbs : bs = [] := by
      refine eq_nil_of_size (fun p hp => hps p ?_) (by omega)
      rw [hps']
      exact List.mem_append_right before hp
    rw [hbs, List.append_nil] at hps'
    rw [hps']
    exact isBoundary_start _ _

/-- Tokens start and stop at boundaries. -/
theorem isBoundary_token {offset : Nat} {ps : List Piece} {t : Token} (h : t ∈ tokensAt offset ps) :
    IsBoundary offset ps t.span.start ∧ IsBoundary offset ps t.span.stop := by
  induction ps generalizing offset with
  | nil => cases h
  | cons p ps ih =>
      rw [tokensAt] at h
      rcases List.mem_append.mp h with h | h
      · cases p with
        | lexeme l =>
            rw [List.mem_singleton.mp h]
            exact ⟨isBoundary_start _ _, .cons (isBoundary_start _ ps)⟩
        | blank c => cases h
        | comment body => cases h
      · exact ⟨(ih h).1.cons, (ih h).2.cons⟩

end Piece

/-- The fix covers some of the pieces, of which the first one starts at `offset`. -/
structure Fix.Covers (offset : Nat) (ps : List Piece) (f : Fix) : Prop where
  start : Piece.IsBoundary offset ps f.span.start
  stop : Piece.IsBoundary offset ps f.span.stop
  forward : f.span.start < f.span.stop

/-- The pieces before a fix, under it and behind it. -/
theorem Fix.Covers.split {offset : Nat} {ps : List Piece} {f : Fix} (h : f.Covers offset ps)
    (hps : ∀ p ∈ ps, p.Valid) : ∃ before inside after, ps = before ++ (inside ++ after) ∧
      f.span.start = offset + Text.size (before.flatMap Piece.text) ∧
      f.span.stop = f.span.start + Text.size (inside.flatMap Piece.text) := by
  obtain ⟨before, rest, rfl, hstart⟩ := h.start
  have hstop := h.stop.rest (fun p hp => hps p (List.mem_append_left rest hp)) (by
    have := h.forward
    omega)
  obtain ⟨inside, after, rfl, hinside⟩ := hstop
  exact ⟨before, inside, after, rfl, hstart, by omega⟩

/-! ## Editing pieces -/

namespace Piece

/-- What the pieces come to after fixes: `old` says what a piece was. -/
def editAll (fixes : List Fix) (content : Fix → List β) (old : Piece → List β) (offset : Nat) :
    List Piece → List β
  | [] => []
  | p :: ps =>
      edited fixes content offset (old p) ++
        editAll fixes content old (offset + Text.size p.text) ps

section EditAll

variable {fixes : List Fix} {content : Fix → List β} {old : Piece → List β}

theorem editAll_append (offset : Nat) (ps qs : List Piece) :
    editAll fixes content old offset (ps ++ qs) = editAll fixes content old offset ps ++
      editAll fixes content old (offset + Text.size (ps.flatMap text)) qs := by
  induction ps generalizing offset with
  | nil => rfl
  | cons p ps ih =>
      rw [List.cons_append, editAll, editAll, ih, List.flatMap_cons, Text.size_append,
        Nat.add_assoc, List.append_assoc]

/-- Pieces that no fix is over stay. -/
theorem editAll_untouched {offset : Nat} {ps : List Piece}
    (h : ∀ f ∈ fixes, offset + Text.size (ps.flatMap text) ≤ f.span.start)
    (hps : ∀ p ∈ ps, p.Valid) : editAll fixes content old offset ps = ps.flatMap old := by
  induction ps generalizing offset with
  | nil => rfl
  | cons p ps ih =>
      obtain ⟨hp, hrest⟩ := List.forall_mem_cons.mp hps
      have hsize := Text.size_pos hp.text_ne_nil
      rw [List.flatMap_cons, Text.size_append] at h
      rw [editAll, List.flatMap_cons, edited_untouched, ih _ hrest]
      · intro f hf
        have := h f hf
        omega
      · intro f hf
        have := h f hf
        exact Span.not_holds_iff.mpr (Or.inl (by omega))

/-- Pieces under one fix come to nothing behind its start. -/
theorem editAll_covered (hordered : Ordered fixes) {f : Fix} (hf : f ∈ fixes) {offset : Nat}
    {ps : List Piece} (hstart : f.span.start < offset)
    (hstop : offset + Text.size (ps.flatMap text) ≤ f.span.stop) (hps : ∀ p ∈ ps, p.Valid) :
    editAll fixes content old offset ps = [] := by
  induction ps generalizing offset with
  | nil => rfl
  | cons p ps ih =>
      obtain ⟨hp, hrest⟩ := List.forall_mem_cons.mp hps
      have hsize := Text.size_pos hp.text_ne_nil
      rw [List.flatMap_cons, Text.size_append] at hstop
      have hholds : f.span.holds offset = true := Span.holds_iff.mpr ⟨by omega, by omega⟩
      rw [editAll, edited_touched hordered hf hholds, if_neg (by omega),
        ih (by omega) (by omega) hrest]
      rfl

/-- The pieces under one fix, all of them, come to its content. -/
theorem editAll_replaced (hordered : Ordered fixes) {f : Fix} (hf : f ∈ fixes)
    {ps : List Piece} (hne : ps ≠ [])
    (hstop : f.span.start + Text.size (ps.flatMap text) ≤ f.span.stop)
    (hps : ∀ p ∈ ps, p.Valid) : editAll fixes content old f.span.start ps = content f := by
  obtain ⟨p, ps, rfl⟩ := List.exists_cons_of_ne_nil hne
  obtain ⟨hp, hrest⟩ := List.forall_mem_cons.mp hps
  have hsize := Text.size_pos hp.text_ne_nil
  rw [List.flatMap_cons, Text.size_append] at hstop
  have hholds : f.span.holds f.span.start = true := Span.holds_iff.mpr ⟨by omega, by omega⟩
  rw [editAll, edited_touched hordered hf hholds, if_pos rfl,
    editAll_covered hordered hf (by omega) (by omega) hrest, List.append_nil]

/-- A fix that stops before the pieces has no say in them. -/
theorem editAll_passed {f : Fix} {offset : Nat} (h : f.span.stop ≤ offset) (ps : List Piece) :
    editAll (f :: fixes) content old offset ps = editAll fixes content old offset ps := by
  induction ps generalizing offset with
  | nil => rfl
  | cons p ps ih => rw [editAll, editAll, edited_passed h, ih (by omega)]

end EditAll

end Piece

/-! ## Replacing and splicing -/

theorem Text.cut?_append (x y : Text) : Text.cut? (x ++ y) (Text.size x) = some (x, y) := by
  induction x with
  | nil =>
      cases y with
      | nil => rfl
      | cons c y => rfl
  | cons c x ih =>
      have hpos := c.utf8Size_pos
      have hsize : Text.size (c :: x) = (c.utf8Size + Text.size x - 1) + 1 := by
        show c.utf8Size + Text.size x = _
        omega
      have hrest : c.utf8Size + Text.size x - 1 + 1 - c.utf8Size = Text.size x := by omega
      rw [List.cons_append, hsize, Text.cut?, if_pos (by omega), hrest, ih]
      rfl

/-- What stands between two boundaries is the text in between. -/
theorem Text.slice?_append (x y z : Text) :
    Text.slice? (x ++ (y ++ z)) ⟨Text.size x, Text.size x + Text.size y⟩ = some y := by
  rw [Text.slice?, if_pos (Nat.le_add_right _ _), Text.cut?_append]
  show (Text.cut? (y ++ z) (Text.size x + Text.size y - Text.size x)).map Prod.fst = some y
  rw [Nat.add_sub_cancel_left, Text.cut?_append]
  rfl

/-- The boundaries of a text are where it can be cut. -/
theorem Text.isBoundary_iff {s : Text} {n : Nat} :
    s.isBoundary n = true ↔ ∃ x y, s = x ++ y ∧ n = x.size := by
  constructor
  · intro h
    induction s generalizing n with
    | nil =>
        cases n with
        | zero => exact ⟨[], [], rfl, rfl⟩
        | succ n => cases h
    | cons c cs ih =>
        cases n with
        | zero => exact ⟨[], c :: cs, rfl, rfl⟩
        | succ n =>
            rw [isBoundary, cut?] at h
            split at h
            · next hle =>
                rw [Option.isSome_map] at h
                obtain ⟨x, y, rfl, hsize⟩ := ih h
                refine ⟨c :: x, y, rfl, ?_⟩
                show n + 1 = c.utf8Size + x.size
                omega
            · cases h
  · rintro ⟨x, y, rfl, rfl⟩
    rw [isBoundary, cut?_append]
    rfl

namespace Fix

/-- The span of the fix does not stop before it starts. -/
def Forward (f : Fix) : Prop :=
  f.span.start ≤ f.span.stop

/-- The fix stands over a part of the text, which starts at `offset`: its span holds whole
    characters, or is a place between two. -/
def IsOver (offset : Nat) (s : Text) (f : Fix) : Prop :=
  ∃ before under after, s = before ++ (under ++ after) ∧
    f.span.start = offset + before.size ∧ f.span.stop = f.span.start + under.size

/-- Cuts of a text, one no later than the other, cut a part out of it. -/
theorem exists_part {x y x' y' : Text} (h : x ++ y = x' ++ y') (hsize : x.size ≤ x'.size) :
    ∃ z, x' = x ++ z ∧ y = z ++ y' := by
  rcases List.append_eq_append_iff.mp h with ⟨z, hx', hy⟩ | ⟨z, rfl, rfl⟩
  · exact ⟨z, hx', hy⟩
  · cases z with
    | nil => exact ⟨[], by simp, rfl⟩
    | cons c z =>
        have hpos := Text.size_pos (List.cons_ne_nil c z)
        rw [Text.size_append] at hsize
        omega

theorem fits_iff {f : Fix} {s : Text} (hf : f.Forward) : f.fits s = true ↔ f.IsOver 0 s := by
  rw [fits, Bool.and_eq_true, Text.isBoundary_iff, Text.isBoundary_iff]
  constructor
  · rintro ⟨⟨x, y, rfl, hstart⟩, x', y', heq, hstop⟩
    rw [Forward] at hf
    obtain ⟨z, rfl, rfl⟩ := exists_part heq (by omega)
    rw [Text.size_append] at hstop
    exact ⟨x, z, y', rfl, by omega, by omega⟩
  · rintro ⟨before, under, after, rfl, hstart, hstop⟩
    refine ⟨⟨before, under ++ after, rfl, by omega⟩, before ++ under, after, ?_, ?_⟩
    · rw [List.append_assoc]
    · rw [Text.size_append]
      omega

/-- Behind some of the text, a fix stands over the rest of it. -/
theorem IsOver.rest {offset : Nat} {x y : Text} {f : Fix} (h : f.IsOver offset (x ++ y))
    (hx : offset + x.size ≤ f.span.start) : f.IsOver (offset + x.size) y := by
  obtain ⟨before, under, after, heq, hstart, hstop⟩ := h
  obtain ⟨z, rfl, rfl⟩ := exists_part heq (by omega)
  rw [Text.size_append] at hstart
  exact ⟨z, under, after, rfl, by omega, hstop⟩

/-- Behind one fix, those that start no sooner than it stops stand over the rest. -/
theorem IsOver.behind {f g : Fix} {offset : Nat} {before under after : Text}
    (h : g.IsOver offset (before ++ (under ++ after)))
    (hstart : f.span.start = offset + before.size) (hstop : f.span.stop = f.span.start + under.size)
    (hg : f.span.stop ≤ g.span.start) : g.IsOver f.span.stop after := by
  rw [← List.append_assoc] at h
  have hsize := Text.size_append before under
  have hoffset : offset + (before ++ under).size = f.span.stop := by omega
  rw [← hoffset]
  exact h.rest (by omega)

/-- Replacing what is under a fix leaves both sides as they are. -/
theorem replace_append {f : Fix} {x y : Text} (hstart : f.span.start = x.size)
    (hstop : f.span.stop = (x ++ y).size) (z : Text) :
    f.replace (x ++ (y ++ z)) = x ++ (f.replacement ++ z) := by
  have hfront : Text.cut? (x ++ (y ++ z)) f.span.start = some (x, y ++ z) := by
    rw [hstart]
    exact Text.cut?_append x (y ++ z)
  have hback : Text.cut? (x ++ (y ++ z)) f.span.stop = some (x ++ y, z) := by
    rw [← List.append_assoc, hstop]
    exact Text.cut?_append (x ++ y) z
  rw [replace, hfront, hback]
  exact List.append_assoc _ _ _

/-- The text, which starts at `offset`, with fixes applied from the front: they come in order
    and do not overlap. -/
def splice (offset : Nat) : Text → List Fix → Text
  | source, [] => source
  | source, f :: fs =>
      let kept := (source.cut? (f.span.start - offset)).getD (source, [])
      let dropped := (kept.2.cut? (f.span.stop - f.span.start)).getD (kept.2, [])
      kept.1 ++ f.replacement ++ splice f.span.stop dropped.2 fs

theorem splice_cons {f : Fix} {fs : List Fix} {offset : Nat} {before under after : Text}
    (hstart : f.span.start = offset + before.size)
    (hstop : f.span.stop = f.span.start + under.size) :
    splice offset (before ++ (under ++ after)) (f :: fs)
      = before ++ (f.replacement ++ splice f.span.stop after fs) := by
  have hkept : f.span.start - offset = before.size := by omega
  have hdropped : f.span.stop - f.span.start = under.size := by omega
  rw [splice, hkept, hdropped, Text.cut?_append, Option.getD_some, Text.cut?_append,
    Option.getD_some, List.append_assoc]

/-- **Replacing from the back is splicing from the front**, where each fix stops before the
    next one starts: a replacement leaves what is in front of it as it is. -/
theorem foldr_replace_eq_splice {fixes : List Fix} (hordered : Ordered fixes) :
    ∀ {x y : Text}, (∀ f ∈ fixes, f.IsOver x.size y) →
      fixes.foldr replace (x ++ y) = x ++ splice x.size y fixes := by
  induction fixes with
  | nil => exact fun _ => rfl
  | cons f fs ih =>
      intro x y hover
      obtain ⟨hlater, hfs⟩ := List.pairwise_cons.mp hordered
      obtain ⟨⟨before, under, after, rfl, hstart, hstop⟩, hrest⟩ := List.forall_mem_cons.mp hover
      have hfront : f.span.start = (x ++ before).size := by
        rw [Text.size_append]
        exact hstart
      have hback : f.span.stop = (x ++ before ++ under).size := by
        rw [Text.size_append, ← hfront]
        exact hstop
      -- all later fixes leave the text up to where this one stops
      have hlast := @ih hfs (x ++ before ++ under) after fun g hg => by
        rw [← hback]
        exact (hrest g hg).behind hstart hstop (hlater g hg)
      calc f.replace (fs.foldr replace (x ++ (before ++ (under ++ after))))
          = f.replace (fs.foldr replace (x ++ before ++ under ++ after)) := by
            simp only [List.append_assoc]
        _ = f.replace (x ++ before ++ (under ++ splice f.span.stop after fs)) := by
            rw [hlast, ← hback, List.append_assoc]
        _ = x ++ before ++ (f.replacement ++ splice f.span.stop after fs) :=
            replace_append hfront hback _
        _ = x ++ splice x.size (before ++ (under ++ after)) (f :: fs) := by
            rw [splice_cons hstart hstop, List.append_assoc]

end Fix

/-- **Splicing edits piece by piece.** -/
theorem Fix.splice_eq {fixes : List Fix} (hordered : Ordered fixes) :
    ∀ {offset : Nat} {ps : List Piece}, (∀ p ∈ ps, p.Valid) → (∀ f ∈ fixes, f.Covers offset ps) →
      Fix.splice offset (ps.flatMap Piece.text) fixes
        = Piece.editAll fixes Fix.replacement Piece.text offset ps := by
  induction fixes with
  | nil =>
      intro offset ps hps _
      rw [Fix.splice, Piece.editAll_untouched (List.forall_mem_nil _) hps]
  | cons f fs ih =>
      intro offset ps hps hcovers
      obtain ⟨hfirst, hlater⟩ := List.pairwise_cons.mp hordered
      obtain ⟨hf, hfs⟩ := List.forall_mem_cons.mp hcovers
      have hforward := hf.forward
      obtain ⟨before, inside, after, rfl, hstart, hstop⟩ := hf.split hps
      obtain ⟨hbefore, hrest⟩ := List.forall_mem_append.mp hps
      obtain ⟨hinside, hafter⟩ := List.forall_mem_append.mp hrest
      have hne : inside ≠ [] := by
        rintro rfl
        exact absurd hstop (by simp [Text.size]; omega)
      have hbehind : ∀ g ∈ fs, g.Covers f.span.stop after := by
        intro g hg
        have hgf := hfirst g hg
        have hg := hfs g hg
        have hgforward := hg.forward
        rw [hstop, hstart]
        refine ⟨?_, ?_, hgforward⟩
        · exact (hg.start.rest hbefore (by omega)).rest hinside (by omega)
        · exact (hg.stop.rest hbefore (by omega)).rest hinside (by omega)
      have huntouched : Piece.editAll (f :: fs) Fix.replacement Piece.text offset before
          = before.flatMap Piece.text := by
        refine Piece.editAll_untouched ?_ hbefore
        refine List.forall_mem_cons.mpr ⟨by omega, fun g hg => ?_⟩
        have := hfirst g hg
        omega
      rw [List.flatMap_append, List.flatMap_append, Fix.splice_cons hstart hstop,
        ih hlater hafter hbehind, Piece.editAll_append, Piece.editAll_append, huntouched, ← hstart,
        ← hstop, Piece.editAll_replaced hordered List.mem_cons_self hne (by omega) hinside,
        Piece.editAll_passed (Nat.le_refl _)]

/-! ## Applying -/

namespace Fix

theorem le_of_stop_le {f g : Fix} (hf : f.span.start < f.span.stop)
    (h : f.span.stop ≤ g.span.start) : le f g = true := by
  simp only [le, Span.before, Bool.not_eq_true', Bool.or_eq_false_iff, Bool.and_eq_false_iff,
    decide_eq_false_iff_not, beq_eq_false_iff_ne]
  exact ⟨by omega, Or.inl (by omega)⟩

theorem clash?_eq_none {fixes : List Fix} (hordered : Ordered fixes)
    (hforward : ∀ f ∈ fixes, f.span.start < f.span.stop) : clash? fixes = none := by
  induction hordered with
  | nil => rfl
  | @cons f fs hf _ ih =>
      obtain ⟨hff, hfs⟩ := List.forall_mem_cons.mp hforward
      cases fs with
      | nil => rfl
      | cons g gs =>
          have hfg := hf g List.mem_cons_self
          have hapart : f.span.overlaps g.span = false := by
            simp only [Span.overlaps, Bool.or_eq_false_iff, Bool.and_eq_false_iff,
              decide_eq_false_iff_not, beq_eq_false_iff_ne]
            refine ⟨Or.inr (by omega), ?_⟩
            intro heq
            rw [heq] at hfg hff
            omega
          rw [clash?, hapart]
          exact ih hfs

/-- Boundaries between pieces are boundaries of the text. -/
theorem isBoundary_of_piece {ps : List Piece} {o : Nat} (h : Piece.IsBoundary 0 ps o) :
    Text.isBoundary (ps.flatMap Piece.text) o = true := by
  obtain ⟨before, after, rfl, rfl⟩ := h
  rw [List.flatMap_append, Nat.zero_add, Text.isBoundary, Text.cut?_append]
  rfl

theorem Covers.fits {f : Fix} {ps : List Piece} (h : f.Covers 0 ps) :
    f.fits (ps.flatMap Piece.text) = true := by
  rw [Fix.fits, isBoundary_of_piece h.start, isBoundary_of_piece h.stop]
  rfl

/-- Fixes in order that cover whole pieces can be applied. -/
theorem apply_eq {fixes : List Fix} {ps : List Piece} (hordered : Ordered fixes)
    (hcovers : ∀ f ∈ fixes, f.Covers 0 ps) :
    apply (ps.flatMap Piece.text) fixes = .ok (splice 0 (ps.flatMap Piece.text) fixes) := by
  have hsorted : stableSort le fixes = fixes := by
    refine stableSort_eq_self (hordered.imp_of_mem ?_)
    intro f g hf _ hfg
    exact le_of_stop_le (hcovers f hf).forward hfg
  have hfits : fixes.find? (fun f => !f.fits (ps.flatMap Piece.text)) = none := by
    rw [List.find?_eq_none]
    intro f hf
    rw [(hcovers f hf).fits]
    decide
  have hforward : fixes.find? (fun f => f.span.isBackward) = none := by
    rw [List.find?_eq_none]
    intro f hf
    have := (hcovers f hf).forward
    simp only [Span.isBackward, decide_eq_true_eq]
    omega
  have hsplice := @foldr_replace_eq_splice fixes hordered [] (ps.flatMap Piece.text)
    fun f hf => (fits_iff (Nat.le_of_lt (hcovers f hf).forward)).mp (hcovers f hf).fits
  simp only [apply, hsorted, hfits, hforward,
    clash?_eq_none hordered fun f hf => (hcovers f hf).forward]
  exact congrArg Except.ok hsplice

/-- The lexemes of the replacement that are no trivia. -/
def lexemes (f : Fix) : List Lexeme :=
  (EbnfKit.lexemes f.replacement).filter fun l => !l.kind.isTrivia

end Fix

/-! ## Editing tokens -/

/-- The lexemes that tokens come to after fixes. -/
def editTokens (fixes : List Fix) (ts : List Token) : List Lexeme :=
  ts.flatMap fun t => edited fixes Fix.lexemes t.span.start [t.lexeme]

section EditTokens

variable {fixes : List Fix}

theorem editTokens_append (ts us : List Token) :
    editTokens fixes (ts ++ us) = editTokens fixes ts ++ editTokens fixes us :=
  List.flatMap_append

/-- Tokens that no fix is over stay. -/
theorem editTokens_untouched {ts : List Token}
    (h : ∀ f ∈ fixes, ∀ t ∈ ts, f.span.holds t.span.start = false) :
    editTokens fixes ts = ts.map Token.lexeme := by
  induction ts with
  | nil => rfl
  | cons t ts ih =>
      have ht : edited fixes Fix.lexemes t.span.start [t.lexeme] = [t.lexeme] :=
        edited_untouched fun f hf => h f hf t List.mem_cons_self
      rw [editTokens, List.flatMap_cons, ht, List.map_cons]
      exact congrArg (t.lexeme :: ·) (ih fun f hf u hu => h f hf u (List.mem_cons_of_mem t hu))

/-- Tokens under one fix, all of them, come to what it writes. -/
theorem editTokens_replaced (hordered : Ordered fixes) {f : Fix} (hf : f ∈ fixes)
    {ts : List Token} (hts : Scanned ts) (hne : ts ≠ []) (hstart : f.span.start = (Span.over ts).start)
    (hstop : (Span.over ts).stop ≤ f.span.stop) : editTokens fixes ts = f.lexemes := by
  have hholds : ∀ t ∈ ts, f.span.holds t.span.start = true := by
    intro t ht
    have hbounds := Span.over_bounds hts ht
    have hforward := hts.forward t ht
    exact Span.holds_iff.mpr ⟨by omega, by omega⟩
  obtain ⟨t, us, rfl⟩ := List.exists_cons_of_ne_nil hne
  obtain ⟨ht, hus⟩ := List.forall_mem_cons.mp hholds
  have hfirst : f.span.start = t.span.start := hstart
  -- the fix starts at the first token, so it does not start at any other
  have hnothing : us.flatMap (fun u => edited fixes Fix.lexemes u.span.start [u.lexeme]) = [] := by
    refine List.flatMap_eq_nil_iff.mpr fun u hu => ?_
    have hnext : t.span.stop ≤ u.span.start := (List.pairwise_cons.mp hts.ordered).1 u hu
    have hforward := hts.forward t List.mem_cons_self
    rw [edited_touched hordered hf (hus u hu), if_neg (by omega)]
  rw [editTokens, List.flatMap_cons, hnothing, edited_touched hordered hf ht, if_pos hfirst,
    List.append_nil]

end EditTokens

/-- A text and the pieces that it is made of, with its tokens among them. -/
structure Layout (s : Text) (ps : List Piece) : Prop where
  valid : ∀ p ∈ ps, p.Valid
  text : ps.flatMap Piece.text = s
  tokens : Piece.tokensAt 0 ps = significant s

theorem Finished.layout {s : Text} (h : Finished s) : ∃ ps, Layout s ps := by
  obtain ⟨ps, hvalid, htext, htokens⟩ := h.pieces
  exact ⟨ps, hvalid, htext, (htokens 0).trans (significant_eq s).symm⟩

namespace Piece

variable {fixes : List Fix}

/-- No token starts before the pieces do. -/
theorem le_of_mem_tokensAt {offset : Nat} {ps : List Piece} {t : Token}
    (h : t ∈ tokensAt offset ps) : offset ≤ t.span.start := by
  obtain ⟨⟨before, after, -, hstart⟩, -⟩ := isBoundary_token h
  omega

/-- No token stops behind them. -/
theorem stop_le_of_mem_tokensAt {offset : Nat} {ps : List Piece} {t : Token}
    (h : t ∈ tokensAt offset ps) : t.span.stop ≤ offset + Text.size (ps.flatMap text) := by
  obtain ⟨-, ⟨before, after, rfl, hstop⟩⟩ := isBoundary_token h
  rw [List.flatMap_append, Text.size_append]
  omega

/-- Where every fix starts at a token, the lexemes among the pieces are edited as tokens. -/
theorem editAll_lexemes {offset : Nat} {ps : List Piece} (hps : ∀ p ∈ ps, p.Valid)
    (h : ∀ f ∈ fixes, offset ≤ f.span.start →
      f.span.start < offset + Text.size (ps.flatMap text) →
      ∃ t ∈ tokensAt offset ps, t.span.start = f.span.start) :
    editAll fixes Fix.lexemes (fun p => p.lexeme?.toList) offset ps
      = editTokens fixes (tokensAt offset ps) := by
  induction ps generalizing offset with
  | nil => rfl
  | cons p ps ih =>
      obtain ⟨hp, hrest⟩ := List.forall_mem_cons.mp hps
      have hsize := Text.size_pos hp.text_ne_nil
      rw [List.flatMap_cons, Text.size_append] at h
      -- only the first piece itself can hold a token that starts so early
      have hlater : ∀ f ∈ fixes, offset + Text.size p.text ≤ f.span.start →
          f.span.start < offset + Text.size p.text + Text.size (ps.flatMap text) →
          ∃ t ∈ tokensAt (offset + Text.size p.text) ps, t.span.start = f.span.start := by
        intro f hf hlo hhi
        obtain ⟨t, ht, hstart⟩ := h f hf (by omega) (by omega)
        rw [tokensAt] at ht
        rcases List.mem_append.mp ht with ht | ht
        · cases p with
          | lexeme l =>
              rw [List.mem_singleton.mp ht] at hstart
              have : offset = f.span.start := hstart
              omega
          | blank c => cases ht
          | comment body => cases ht
        · exact ⟨t, ht, hstart⟩
      -- and no fix starts at a piece without a lexeme
      have hnone : p.lexeme? = none →
          edited fixes Fix.lexemes offset p.lexeme?.toList = [] := by
        intro hnone
        cases hfind : fixes.find? (fun f => f.span.holds offset) with
        | none => rw [edited, hfind, hnone]; rfl
        | some f =>
            have hf := List.mem_of_find?_eq_some hfind
            rw [edited, hfind]
            show (if f.span.start = offset then f.lexemes else []) = []
            refine if_neg fun hstart => ?_
            obtain ⟨t, ht, htf⟩ := h f hf (by omega) (by omega)
            rw [tokensAt, hnone] at ht
            have := le_of_mem_tokensAt ht
            omega
      rw [editAll, tokensAt, editTokens_append, ih hrest hlater]
      cases p with
      | lexeme l => exact congrArg (· ++ _) (List.append_nil _).symm
      | blank c => rw [hnone rfl]; rfl
      | comment body => rw [hnone rfl]; rfl

/-- Edited pieces write the edited lexemes. -/
theorem editAll_writes {offset : Nat} {ps : List Piece} (hps : ∀ p ∈ ps, p.Valid)
    (h : ∀ f ∈ fixes, Writes f.replacement f.lexemes) :
    Writes (editAll fixes Fix.replacement text offset ps)
      (editAll fixes Fix.lexemes (fun p => p.lexeme?.toList) offset ps) := by
  induction ps generalizing offset with
  | nil => exact .nil
  | cons p ps ih =>
      obtain ⟨hp, hrest⟩ := List.forall_mem_cons.mp hps
      refine Writes.append ?_ (ih hrest)
      -- no fix is over the piece, or one that starts there, or one that started before
      cases hfind : fixes.find? (fun f => f.span.holds offset) with
      | none =>
          rw [edited, edited, hfind]
          exact .piece hp
      | some f =>
          rw [edited, edited, hfind]
          by_cases hstart : f.span.start = offset
          · simp only [if_pos hstart]
            exact h f (List.mem_of_find?_eq_some hfind)
          · simp only [if_neg hstart]
            exact .nil

end Piece

/-- **The edited text writes the edited tokens**, where fixes in order start at tokens and
    cover whole pieces. -/
theorem Fix.apply_writes {s : Text} {ps : List Piece} {fixes : List Fix} (hs : Layout s ps)
    (hordered : Ordered fixes) (hcovers : ∀ f ∈ fixes, f.Covers 0 ps)
    (hstart : ∀ f ∈ fixes, ∃ t ∈ significant s, t.span.start = f.span.start)
    (hwrites : ∀ f ∈ fixes, Writes f.replacement f.lexemes) :
    ∃ s', apply s fixes = .ok s' ∧ Writes s' (editTokens fixes (significant s)) := by
  obtain ⟨hvalid, rfl, htokens⟩ := hs
  refine ⟨_, apply_eq hordered hcovers, ?_⟩
  rw [splice_eq hordered hvalid hcovers, ← htokens, ← Piece.editAll_lexemes hvalid]
  · exact Piece.editAll_writes hvalid hwrites
  · intro f hf _ _
    rw [htokens]
    exact hstart f hf

end EbnfKit
