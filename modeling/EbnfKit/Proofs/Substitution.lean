import Mathlib.Data.List.Perm.Subperm
import EbnfKit.Proofs.Editing

/-! # Substitution — fixes of any kind, all at once

    Fixes can be applied exactly if each of them stands over a part of the text and no two of
    them clash, in whatever order they are given; and then every span is replaced at once:

      apply s fixes  =  at each offset of s, what is inserted there, what replaces the span
                        that starts there, and the character there unless a span holds it

    Only neighbours in the order of their spans are compared.  That is enough: of spans in
    order of which no two neighbours clash each stops before all later ones start. -/

namespace EbnfKit

/-! ## Spans that clash -/

namespace Span

/-- `a` is a place strictly within `b`, and covers nothing itself. -/
def InsertsWithin (a b : Span) : Prop :=
  a.start = a.stop ∧ b.start < a.start ∧ a.start < b.stop

/-- The two spans share a byte, or one is an insertion strictly within the other, or they
    are the same. -/
def Clashes (a b : Span) : Prop :=
  (∃ offset, a.holds offset = true ∧ b.holds offset = true) ∨
    a.InsertsWithin b ∨ b.InsertsWithin a ∨ a = b

theorem Clashes.symm {a b : Span} (h : a.Clashes b) : b.Clashes a := by
  rcases h with ⟨offset, ha, hb⟩ | ha | hb | heq
  · exact Or.inl ⟨offset, hb, ha⟩
  · exact Or.inr (Or.inr (Or.inl ha))
  · exact Or.inr (Or.inl hb)
  · exact Or.inr (Or.inr (Or.inr heq.symm))

theorem overlaps_iff_bounds {a b : Span} : a.overlaps b = true ↔
    (a.start < b.stop ∧ b.start < a.stop) ∨ (a.start = b.start ∧ a.stop = b.stop) := by
  rw [overlaps, Bool.or_eq_true, Bool.and_eq_true, decide_eq_true_iff, decide_eq_true_iff,
    beq_iff_eq]
  cases a
  cases b
  rw [Span.mk.injEq]

/-- Forward spans overlap if they clash. -/
theorem overlaps_iff_clashes {a b : Span} (ha : a.start ≤ a.stop) (hb : b.start ≤ b.stop) :
    a.overlaps b = true ↔ a.Clashes b := by
  rw [overlaps_iff_bounds]
  constructor
  · rintro (⟨hab, hba⟩ | ⟨hstart, hstop⟩)
    · -- the later of the two starts is shared, unless one of the spans is empty
      by_cases hempty : a.start = a.stop
      · exact Or.inr (Or.inl ⟨hempty, by omega, by omega⟩)
      by_cases hempty' : b.start = b.stop
      · exact Or.inr (Or.inr (Or.inl ⟨hempty', by omega, by omega⟩))
      refine Or.inl ⟨max a.start b.start, holds_iff.mpr ?_, holds_iff.mpr ?_⟩
      · omega
      · omega
    · exact Or.inr (Or.inr (Or.inr (congrArg₂ Span.mk hstart hstop)))
  · rintro (⟨offset, hoa, hob⟩ | ⟨hempty, hlo, hhi⟩ | ⟨hempty, hlo, hhi⟩ | rfl)
    · rw [holds_iff] at hoa hob
      exact Or.inl ⟨by omega, by omega⟩
    · exact Or.inl ⟨by omega, by omega⟩
    · exact Or.inl ⟨by omega, by omega⟩
    · exact Or.inr ⟨rfl, rfl⟩

end Span

namespace Fix

variable {fixes fixes' : List Fix} {f g : Fix} {s : Text} {offset : Nat}

/-! ## Fixes in order -/

theorem le_iff : le f g = true ↔ f.span.start < g.span.start ∨
    (f.span.start = g.span.start ∧ f.span.stop ≤ g.span.stop) := by
  rw [le, Span.before, Bool.not_eq_true', Bool.or_eq_false_iff, Bool.and_eq_false_iff,
    decide_eq_false_iff_not, decide_eq_false_iff_not, beq_eq_false_iff_ne]
  omega

/-- Sorting puts fixes in the order of their spans. -/
theorem sorted_pairwise (fixes : List Fix) :
    (stableSort le fixes).Pairwise fun f g => le f g = true := by
  refine stableSort_pairwise (fun a b c hab hbc => ?_) (fun _ _ h => h) (fun a b hab => ?_) fixes
  · rw [le_iff] at hab hbc ⊢
    omega
  · rw [← Bool.not_eq_true, le_iff] at hab
    rw [le_iff]
    omega

/-- In the order of the spans, the spans of the same fixes are always the same. -/
theorem sorted_spans (h : fixes'.Perm fixes) :
    (stableSort le fixes').map Fix.span = (stableSort le fixes).map Fix.span := by
  have hsorted : ∀ fs : List Fix, ((stableSort le fs).map Fix.span).Pairwise fun a b =>
      a.start < b.start ∨ (a.start = b.start ∧ a.stop ≤ b.stop) := by
    intro fs
    rw [List.pairwise_map]
    exact (sorted_pairwise fs).imp le_iff.mp
  refine List.Perm.eq_of_pairwise ?_ (hsorted fixes') (hsorted fixes) ?_
  · intro a b _ _ hab hba
    cases a
    cases b
    rw [Span.mk.injEq]
    simp only at hab hba
    omega
  · exact (((stableSort_perm fixes').trans h).trans (stableSort_perm fixes).symm).map Fix.span

/-- `f` stops before `g` starts, and they are not at the same place. -/
def Precedes (f g : Fix) : Prop :=
  f.span.stop ≤ g.span.start ∧ (f.span.start < g.span.start ∨ f.span.stop < g.span.stop)

theorem Precedes.not_clashes (h : f.Precedes g) (hf : f.Forward) (hg : g.Forward) :
    ¬f.span.Clashes g.span := by
  obtain ⟨hstop, hlater⟩ := h
  rw [Forward] at hf hg
  rw [← Span.overlaps_iff_clashes hf hg, Span.overlaps_iff_bounds]
  omega

/-- Neighbours that do not overlap are all that has to be checked. -/
theorem precedes_of_clash?_eq_none {fs : List Fix} (hsorted : fs.Pairwise fun f g => le f g = true)
    (hforward : ∀ f ∈ fs, f.Forward) (h : clash? fs = none) : fs.Pairwise Precedes := by
  induction fs with
  | nil => exact .nil
  | cons f fs ih =>
      obtain ⟨hf, hfs⟩ := List.forall_mem_cons.mp hforward
      obtain ⟨hle, hsorted⟩ := List.pairwise_cons.mp hsorted
      cases fs with
      | nil => exact List.pairwise_singleton _ _
      | cons g gs =>
          rw [clash?] at h
          split at h
          · cases h
          next hapart =>
          have hlater := ih hsorted hfs h
          have hg : g.span.start ≤ g.span.stop := hfs g List.mem_cons_self
          rw [Forward] at hf
          have hfg : f.Precedes g := by
            have hle := le_iff.mp (hle g List.mem_cons_self)
            rw [Span.overlaps_iff_bounds] at hapart
            exact ⟨by omega, by omega⟩
          -- what comes behind `g` comes behind `f` too
          refine List.Pairwise.cons (List.forall_mem_cons.mpr ⟨hfg, fun q hq => ?_⟩) hlater
          have hq : q.span.start ≤ q.span.stop := hfs q (List.mem_cons_of_mem g hq)
          obtain ⟨hfg₁, hfg₂⟩ := hfg
          obtain ⟨hgq₁, hgq₂⟩ := (List.pairwise_cons.mp hlater).1 q (by assumption)
          exact ⟨by omega, by omega⟩

theorem clash?_of_apart {fs : List Fix} (h : fs.Pairwise fun f g => f.span.overlaps g.span = false) :
    clash? fs = none := by
  induction h with
  | nil => rfl
  | @cons f fs hf _ ih =>
      cases fs with
      | nil => rfl
      | cons g gs => rw [clash?, hf g List.mem_cons_self]; exact ih

/-- What is reported to overlap are two of the fixes that do. -/
theorem exists_of_clash? {fs : List Fix} {a b : Span} (h : clash? fs = some (a, b)) :
    ∃ f g, [f, g].Sublist fs ∧ f.span = a ∧ g.span = b ∧ a.overlaps b = true := by
  induction fs with
  | nil => cases h
  | cons f fs ih =>
      cases fs with
      | nil => cases h
      | cons g gs =>
          rw [clash?] at h
          split at h
          · next hoverlaps =>
              obtain ⟨rfl, rfl⟩ := Prod.mk.inj (Option.some.inj h)
              refine ⟨f, g, ?_, rfl, rfl, hoverlaps⟩
              exact ((List.nil_sublist gs).cons_cons g).cons_cons f
          · obtain ⟨p, q, hsub, hrest⟩ := ih h
            exact ⟨p, q, hsub.cons f, hrest⟩

theorem clash?_congr {fs gs : List Fix} (h : fs.map Fix.span = gs.map Fix.span) :
    clash? fs = clash? gs := by
  induction fs generalizing gs with
  | nil => rw [List.map_eq_nil_iff.mp h.symm]
  | cons f fs ih =>
      obtain ⟨g, gs, rfl, hfg, hrest⟩ := List.map_eq_cons_iff.mp h.symm
      cases fs with
      | nil => rw [List.map_eq_nil_iff.mp hrest]; rfl
      | cons f' fs =>
          obtain ⟨g', gs, rfl, hfg', -⟩ := List.map_eq_cons_iff.mp hrest
          rw [clash?, clash?, hfg, hfg', ih hrest.symm]

theorem clash?_sorted_iff (hforward : ∀ f ∈ fixes, f.Forward) :
    clash? (stableSort le fixes) = none ↔ fixes.Pairwise fun f g => ¬f.span.Clashes g.span := by
  have hperm := @stableSort_perm _ le fixes
  have hforward' : ∀ f ∈ stableSort le fixes, f.Forward :=
    fun f hf => hforward f (hperm.mem_iff.mp hf)
  rw [← hperm.pairwise_iff (fun h hclash => h hclash.symm)]
  constructor
  · intro h
    have hprecedes := precedes_of_clash?_eq_none (sorted_pairwise fixes) hforward' h
    exact hprecedes.imp_of_mem fun hf hg hfg => hfg.not_clashes (hforward' _ hf) (hforward' _ hg)
  · intro h
    refine clash?_of_apart (h.imp_of_mem fun hf hg hapart => ?_)
    rw [← Bool.not_eq_true, Span.overlaps_iff_clashes (hforward' _ hf) (hforward' _ hg)]
    exact hapart

/-! ## Simultaneous substitution -/

/-- What fixes put at the offset: what is inserted there, and then what replaces the span that
    starts there. -/
def placedAt (fixes : List Fix) (offset : Nat) : Text :=
  (fixes.filter fun f => f.span.start = offset ∧ f.span.stop = offset).flatMap Fix.replacement ++
    (fixes.filter fun f => f.span.start = offset ∧ offset < f.span.stop).flatMap Fix.replacement

/-- The text, which starts at `offset`, with every span replaced at once: a character stays
    unless a span holds it. -/
def substituted (fixes : List Fix) (offset : Nat) : Text → Text
  | [] => placedAt fixes offset
  | c :: cs =>
      placedAt fixes offset ++ (if fixes.any (·.span.holds offset) then [] else [c]) ++
        substituted fixes (offset + c.utf8Size) cs

theorem placedAt_eq_nil (h : ∀ f ∈ fixes, f.span.start ≠ offset) : placedAt fixes offset = [] := by
  rw [placedAt, List.append_eq_nil_iff, List.flatMap_eq_nil_iff, List.flatMap_eq_nil_iff]
  constructor
  · intro f hf
    obtain ⟨hf, hat⟩ := List.mem_filter.mp hf
    exact absurd (decide_eq_true_iff.mp hat).1 (h f hf)
  · intro f hf
    obtain ⟨hf, hat⟩ := List.mem_filter.mp hf
    exact absurd (decide_eq_true_iff.mp hat).1 (h f hf)

/-- Where no fix has started, the text stays. -/
theorem substituted_append (x y : Text) (h : ∀ f ∈ fixes, offset + x.size ≤ f.span.start) :
    substituted fixes offset (x ++ y) = x ++ substituted fixes (offset + x.size) y := by
  induction x generalizing offset with
  | nil => rfl
  | cons c x ih =>
      have hsize : Text.size (c :: x) = c.utf8Size + Text.size x := rfl
      have hpos := c.utf8Size_pos
      rw [hsize] at h
      have hplaced : placedAt fixes offset = [] := placedAt_eq_nil fun f hf => by
        have := h f hf
        omega
      have hheld : fixes.any (·.span.holds offset) = false := by
        rw [List.any_eq_false]
        intro f hf hholds
        have := h f hf
        rw [Span.holds_iff] at hholds
        omega
      rw [List.cons_append, substituted, hplaced, hheld, ih fun f hf => by have := h f hf; omega,
        hsize, Nat.add_assoc]
      rfl

theorem substituted_nil (offset : Nat) (s : Text) : substituted [] offset s = s := by
  have h := @substituted_append [] offset s [] (List.forall_mem_nil _)
  rwa [List.append_nil, show substituted [] (offset + s.size) [] = [] from rfl,
    List.append_nil] at h

/-- A fix that is over has no say any more. -/
theorem substituted_passed (hstart : f.span.start < offset) (hstop : f.span.stop ≤ offset)
    (s : Text) : substituted (f :: fixes) offset s = substituted fixes offset s := by
  have hplaced : ∀ o, offset ≤ o → placedAt (f :: fixes) o = placedAt fixes o := by
    intro o ho
    have hne : f.span.start ≠ o := by omega
    rw [placedAt, placedAt, List.filter_cons_of_neg (by simp [hne]),
      List.filter_cons_of_neg (by simp [hne])]
  induction s generalizing offset with
  | nil => exact hplaced offset (Nat.le_refl _)
  | cons c cs ih =>
      have hnot : f.span.holds offset = false := Span.not_holds_iff.mpr (Or.inr hstop)
      rw [substituted, substituted, hplaced offset (Nat.le_refl _), List.any_cons, hnot,
        Bool.false_or, ih (by omega) (by omega) fun o ho => hplaced o (by omega)]

/-- An insertion comes before all else that happens at its place. -/
theorem substituted_insertion (hstart : f.span.start = offset) (hstop : f.span.stop = offset)
    (s : Text) : substituted (f :: fixes) offset s = f.replacement ++ substituted fixes offset s := by
  have hplaced : placedAt (f :: fixes) offset = f.replacement ++ placedAt fixes offset := by
    rw [placedAt, placedAt, List.filter_cons_of_pos (by simp [hstart, hstop]),
      List.filter_cons_of_neg (by simp [hstop]), List.flatMap_cons, List.append_assoc]
  cases s with
  | nil => exact hplaced
  | cons c cs =>
      have hpos := c.utf8Size_pos
      have hnot : f.span.holds offset = false := Span.not_holds_iff.mpr (by omega)
      rw [substituted, substituted, hplaced, List.any_cons, hnot, Bool.false_or,
        substituted_passed (by omega) (by omega), List.append_assoc, List.append_assoc,
        List.append_assoc]

/-- What a span still holds is gone. -/
theorem substituted_held (hlater : ∀ g ∈ fixes, f.span.stop ≤ g.span.start) {x : Text}
    (hstart : f.span.start < offset) (hstop : f.span.stop = offset + x.size) (y : Text) :
    substituted (f :: fixes) offset (x ++ y) = substituted fixes f.span.stop y := by
  induction x generalizing offset with
  | nil =>
      have hoffset : f.span.stop = offset := hstop
      rw [hoffset]
      exact substituted_passed hstart (by omega) y
  | cons c x ih =>
      have hsize : Text.size (c :: x) = c.utf8Size + Text.size x := rfl
      have hpos := c.utf8Size_pos
      rw [hsize] at hstop
      have hplaced : placedAt (f :: fixes) offset = [] := by
        refine placedAt_eq_nil (List.forall_mem_cons.mpr ⟨by omega, fun g hg => ?_⟩)
        have := hlater g hg
        omega
      have hholds : f.span.holds offset = true := Span.holds_iff.mpr ⟨by omega, by omega⟩
      rw [List.cons_append, substituted, hplaced, List.any_cons, hholds, Bool.true_or, if_pos rfl,
        ih (by omega) (by omega)]
      rfl

/-- A fix with nothing but later ones behind it is written, and what it is over is gone. -/
theorem substituted_cons (hlater : ∀ g ∈ fixes, f.span.stop ≤ g.span.start) {x : Text}
    (hstart : f.span.start = offset) (hstop : f.span.stop = offset + x.size) (y : Text) :
    substituted (f :: fixes) offset (x ++ y)
      = f.replacement ++ substituted fixes f.span.stop y := by
  cases x with
  | nil =>
      have hoffset : f.span.stop = offset := hstop
      rw [hoffset]
      exact substituted_insertion hstart hoffset y
  | cons c x =>
      have hsize : Text.size (c :: x) = c.utf8Size + Text.size x := rfl
      have hpos := c.utf8Size_pos
      rw [hsize] at hstop
      have hplaced : placedAt (f :: fixes) offset = f.replacement := by
        have hnone : placedAt fixes offset = [] := placedAt_eq_nil fun g hg => by
          have := hlater g hg
          omega
        rw [placedAt, List.append_eq_nil_iff] at hnone
        rw [placedAt, List.filter_cons_of_neg (by simp; omega), hnone.1,
          List.filter_cons_of_pos (by simp; omega), List.flatMap_cons, hnone.2, List.append_nil,
          List.nil_append]
      have hholds : f.span.holds offset = true := Span.holds_iff.mpr ⟨by omega, by omega⟩
      rw [List.cons_append, substituted, hplaced, List.any_cons, hholds, Bool.true_or, if_pos rfl,
        substituted_held hlater (by omega) (by omega), List.append_nil]

/-- What fixes put at a place does not depend on their order: of each sort there is at most
    one. -/
theorem placedAt_perm (hapart : fixes.Pairwise fun f g => ¬f.span.Clashes g.span)
    (h : fixes'.Perm fixes) (offset : Nat) : placedAt fixes' offset = placedAt fixes offset := by
  have hsame : ∀ p : Fix → Bool, (∀ f g, p f = true → p g = true → f.span.Clashes g.span) →
      fixes'.filter p = fixes.filter p := by
    intro p hp
    have hone : ∀ fs : List Fix, (fs.Pairwise fun f g => ¬f.span.Clashes g.span) →
        (fs.filter p).Pairwise fun _ _ => False := by
      intro fs hfs
      refine (hfs.sublist List.filter_sublist).imp_of_mem fun hf hg hnot => ?_
      exact hnot (hp _ _ (List.mem_filter.mp hf).2 (List.mem_filter.mp hg).2)
    have hapart' := (h.pairwise_iff fun hfg hclash => hfg hclash.symm).mpr hapart
    exact List.Perm.eq_of_pairwise (fun _ _ _ _ hnot => hnot.elim) (hone _ hapart') (hone _ hapart)
      (h.filter p)
  rw [placedAt, placedAt, hsame, hsame]
  · intro f g hf hg
    obtain ⟨hf, hfstop⟩ := of_decide_eq_true hf
    obtain ⟨hg, hgstop⟩ := of_decide_eq_true hg
    exact Or.inl ⟨offset, Span.holds_iff.mpr ⟨by omega, hfstop⟩,
      Span.holds_iff.mpr ⟨by omega, hgstop⟩⟩
  · intro f g hf hg
    obtain ⟨hf, hfstop⟩ := of_decide_eq_true hf
    obtain ⟨hg, hgstop⟩ := of_decide_eq_true hg
    exact Or.inr (Or.inr (Or.inr (congrArg₂ Span.mk (hf.trans hg.symm) (hfstop.trans hgstop.symm))))

theorem substituted_perm (hapart : fixes.Pairwise fun f g => ¬f.span.Clashes g.span)
    (h : fixes'.Perm fixes) (offset : Nat) (s : Text) :
    substituted fixes' offset s = substituted fixes offset s := by
  induction s generalizing offset with
  | nil => exact placedAt_perm hapart h offset
  | cons c cs ih => rw [substituted, substituted, placedAt_perm hapart h, h.any_eq, ih]

/-- **Splicing is simultaneous substitution**, where each fix precedes all later ones. -/
theorem splice_eq_substituted (hprecedes : fixes.Pairwise Precedes) :
    ∀ {offset : Nat} {s : Text}, (∀ f ∈ fixes, f.IsOver offset s) →
      splice offset s fixes = substituted fixes offset s := by
  induction fixes with
  | nil => exact fun _ => (substituted_nil _ _).symm
  | cons f fs ih =>
      intro offset s hover
      obtain ⟨hf, hfs⟩ := List.pairwise_cons.mp hprecedes
      obtain ⟨hfover, hfsover⟩ := List.forall_mem_cons.mp hover
      obtain ⟨before, under, after, rfl, hstart, hstop⟩ := hfover
      have hlater : ∀ g ∈ fs, f.span.stop ≤ g.span.start := fun g hg => (hf g hg).1
      have hrest : ∀ g ∈ fs, g.IsOver f.span.stop after :=
        fun g hg => (hfsover g hg).behind hstart hstop (hlater g hg)
      have hahead : ∀ g ∈ f :: fs, offset + before.size ≤ g.span.start := by
        refine List.forall_mem_cons.mpr ⟨by omega, fun g hg => ?_⟩
        have := hlater g hg
        omega
      rw [splice_cons hstart hstop, ih hfs hrest, substituted_append _ _ hahead,
        substituted_cons hlater (by omega) (by omega)]

/-! ## Applying -/

section Apply

variable (hforward : ∀ f ∈ fixes, f.Forward)

include hforward

/-- Sorted or not, the fixes are forward. -/
theorem forward_sorted : ∀ f ∈ stableSort le fixes, f.Forward :=
  fun f hf => hforward f ((stableSort_perm fixes).mem_iff.mp hf)

/-- Where every fix stands over a part of the text, all of them fit. -/
theorem find?_unfit_eq_none (hover : ∀ f ∈ fixes, f.IsOver 0 s) :
    (stableSort le fixes).find? (fun f => !f.fits s) = none := by
  rw [List.find?_eq_none]
  intro f hf
  have hf := (stableSort_perm fixes).mem_iff.mp hf
  rw [(fits_iff (hforward f hf)).mpr (hover f hf)]
  decide

/-- Fixes that stand over parts of the text and do not clash are substituted. -/
theorem apply_of_apart (hover : ∀ f ∈ fixes, f.IsOver 0 s)
    (hapart : fixes.Pairwise fun f g => ¬f.span.Clashes g.span) :
    apply s fixes = .ok (substituted fixes 0 s) := by
  have hnone : (stableSort le fixes).find? (fun f => f.span.isBackward) = none := by
    rw [List.find?_eq_none]
    intro f hf
    have := forward_sorted hforward f hf
    rw [Forward] at this
    simp only [Span.isBackward, decide_eq_true_eq]
    omega
  have hclash := (clash?_sorted_iff hforward).mpr hapart
  have hprecedes := precedes_of_clash?_eq_none (sorted_pairwise fixes) (forward_sorted hforward)
    hclash
  have hsorted : ∀ f ∈ stableSort le fixes, f.IsOver 0 s :=
    fun f hf => hover f ((stableSort_perm fixes).mem_iff.mp hf)
  have happly : apply s fixes = .ok ((stableSort le fixes).foldr replace s) := by
    simp only [apply, find?_unfit_eq_none hforward hover, hclash, hnone]
  calc apply s fixes
      = .ok (splice 0 s (stableSort le fixes)) :=
        happly.trans (congrArg Except.ok
          (@foldr_replace_eq_splice _ (hprecedes.imp And.left) [] s hsorted))
    _ = .ok (substituted (stableSort le fixes) 0 s) := by
        rw [splice_eq_substituted hprecedes hsorted]
    _ = .ok (substituted fixes 0 s) := by
        rw [substituted_perm hapart (stableSort_perm fixes)]

/-- A fix that stands over no part of the text is the error. -/
theorem apply_of_not_over (h : ∃ f ∈ fixes, ¬f.IsOver 0 s) :
    ∃ f ∈ fixes, ¬f.IsOver 0 s ∧ apply s fixes = .error (.outOfBounds f.span s.size) := by
  obtain ⟨g, hg, hnot⟩ := h
  have hunfit : ∀ f ∈ fixes, (!f.fits s) = true ↔ ¬f.IsOver 0 s := by
    intro f hf
    rw [← fits_iff (hforward f hf), Bool.not_eq_true', Bool.not_eq_true]
  cases hfind : (stableSort le fixes).find? fun f => !f.fits s with
  | none =>
      have hnone := List.find?_eq_none.mp hfind g ((stableSort_perm fixes).mem_iff.mpr hg)
      exact absurd ((hunfit g hg).mpr hnot) hnone
  | some f =>
      have hf := (stableSort_perm fixes).mem_iff.mp (List.mem_of_find?_eq_some hfind)
      have hbad := List.find?_some hfind
      refine ⟨f, hf, (hunfit f hf).mp hbad, ?_⟩
      simp only [apply, hfind]

/-- Else two fixes that clash are the error. -/
theorem apply_of_clash (hover : ∀ f ∈ fixes, f.IsOver 0 s)
    (h : ¬fixes.Pairwise fun f g => ¬f.span.Clashes g.span) :
    ∃ f g, [f, g].Subperm fixes ∧ f.span.Clashes g.span ∧
      apply s fixes = .error (.overlap f.span g.span) := by
  rw [← clash?_sorted_iff hforward] at h
  obtain ⟨⟨a, b⟩, hclash⟩ := Option.ne_none_iff_exists'.mp h
  obtain ⟨f, g, hsub, rfl, rfl, hoverlaps⟩ := exists_of_clash? hclash
  have hf := forward_sorted hforward f (hsub.subset List.mem_cons_self)
  have hg := forward_sorted hforward g (hsub.subset (List.mem_cons_of_mem f List.mem_cons_self))
  refine ⟨f, g, hsub.subperm.trans (stableSort_perm fixes).subperm, ?_, ?_⟩
  · exact (Span.overlaps_iff_clashes hf hg).mp hoverlaps
  · simp only [apply, find?_unfit_eq_none hforward hover, hclash]

/-- **The order in which fixes are given does not matter**, also where they are refused. -/
theorem apply_perm (h : fixes'.Perm fixes) : apply s fixes' = apply s fixes := by
  have hspans := sorted_spans h
  have hforward' : ∀ f ∈ fixes', f.Forward := fun f hf => hforward f (h.mem_iff.mp hf)
  have hfind : ∀ p : Span → Bool,
      ((stableSort le fixes').find? fun f => p f.span).map Fix.span
        = ((stableSort le fixes).find? fun f => p f.span).map Fix.span := by
    intro p
    have hmap := congrArg (List.find? p) hspans
    rwa [List.find?_map, List.find?_map] at hmap
  have hclash := clash?_congr hspans
  -- where the fixes can be applied, no two of them are at the same place
  have hsame : clash? (stableSort le fixes) = none → stableSort le fixes' = stableSort le fixes := by
    intro hnone
    have hprecedes := precedes_of_clash?_eq_none (sorted_pairwise fixes) (forward_sorted hforward) hnone
    have hprecedes' := precedes_of_clash?_eq_none (sorted_pairwise fixes')
      (forward_sorted hforward') (hclash.trans hnone)
    refine List.Perm.eq_of_pairwise (fun f g hf hg hfg hgf => ?_) hprecedes' hprecedes
      (((stableSort_perm fixes').trans h).trans (stableSort_perm fixes).symm)
    have hf := forward_sorted hforward' f hf
    have hg := forward_sorted hforward g hg
    rw [Forward] at hf hg
    rw [Precedes] at hfg hgf
    omega
  have hunfit := hfind fun span => !(s.isBoundary span.start && s.isBoundary span.stop)
  cases hbad : (stableSort le fixes).find? fun f => !f.fits s with
  | some f =>
      obtain ⟨f', hbad', hspan⟩ :=
        Option.map_eq_some_iff.mp (hunfit.trans (congrArg (Option.map Fix.span) hbad))
      have hbad' : (stableSort le fixes').find? (fun f => !f.fits s) = some f' := hbad'
      simp only [apply, hbad, hbad', hspan]
  | none =>
      have hbad' : (stableSort le fixes').find? (fun f => !f.fits s) = none :=
        Option.map_eq_none_iff.mp (hunfit.trans (congrArg (Option.map Fix.span) hbad))
      cases hnext : clash? (stableSort le fixes) with
      | some pair => simp only [apply, hbad, hbad', hclash, hnext]
      | none => rw [apply, apply, hsame hnext]

end Apply

/-- **Fixes of any kind apply all at once.**  They can be applied exactly if each stands over a
    part of the text and no two clash, and then they are substituted; else the error is a fix
    that stands over no part, if there is one, and two fixes that clash if not.  None of that
    depends on the order in which they are given. -/
theorem apply_substitutes (s : Text) (fixes : List Fix) (hforward : ∀ f ∈ fixes, f.Forward) :
    (∀ s', apply s fixes = .ok s' ↔ (∀ f ∈ fixes, f.IsOver 0 s) ∧
      (fixes.Pairwise fun f g => ¬f.span.Clashes g.span) ∧ s' = substituted fixes 0 s) ∧
    ((∃ f ∈ fixes, ¬f.IsOver 0 s) →
      ∃ f ∈ fixes, ¬f.IsOver 0 s ∧ apply s fixes = .error (.outOfBounds f.span s.size)) ∧
    ((∀ f ∈ fixes, f.IsOver 0 s) → (¬fixes.Pairwise fun f g => ¬f.span.Clashes g.span) →
      ∃ f g, [f, g].Subperm fixes ∧ f.span.Clashes g.span ∧
        apply s fixes = .error (.overlap f.span g.span)) ∧
    ∀ fixes', fixes'.Perm fixes → apply s fixes' = apply s fixes := by
  refine ⟨fun s' => ⟨fun h => ?_, ?_⟩, apply_of_not_over hforward, apply_of_clash hforward,
    fun _ => apply_perm hforward⟩
  · have hover : ∀ f ∈ fixes, f.IsOver 0 s := by
      by_contra hnot
      push Not at hnot
      obtain ⟨f, -, -, herror⟩ := apply_of_not_over hforward hnot
      rw [herror] at h
      cases h
    have hapart : fixes.Pairwise fun f g => ¬f.span.Clashes g.span := by
      by_contra hnot
      obtain ⟨f, g, -, -, herror⟩ := apply_of_clash hforward hover hnot
      rw [herror] at h
      cases h
    rw [apply_of_apart hforward hover hapart] at h
    exact ⟨hover, hapart, (Except.ok.inj h).symm⟩
  · rintro ⟨hover, hapart, rfl⟩
    exact apply_of_apart hforward hover hapart

/-- Three fixes from back to front: the one in the middle deletes a letter of two bytes, and the
    last one inserts a sign where that letter starts. -/
theorem apply_substitutes_three :
    ∃ fixes : List Fix, fixes.map Fix.span = [⟨4, 5⟩, ⟨1, 3⟩, ⟨1, 1⟩] ∧
      (∀ f ∈ fixes, f.Forward) ∧ (∀ f ∈ fixes, f.IsOver 0 "aébcd".toList) ∧
      (fixes.Pairwise fun f g => ¬f.span.Clashes g.span) ∧
      "a+bXYd".toList = substituted fixes 0 "aébcd".toList ∧
      apply "aébcd".toList fixes = .ok "a+bXYd".toList ∧
      apply "aébcd".toList fixes.reverse = .ok "a+bXYd".toList := by
  have hforward : ∀ f ∈ [(⟨"", ⟨4, 5⟩, "XY".toList⟩ : Fix), ⟨"", ⟨1, 3⟩, []⟩,
      ⟨"", ⟨1, 1⟩, "+".toList⟩], f.Forward := by
    simp [Forward]
  obtain ⟨hiff, -, -, hperm⟩ := apply_substitutes "aébcd".toList _ hforward
  have happly : apply "aébcd".toList [⟨"", ⟨4, 5⟩, "XY".toList⟩, ⟨"", ⟨1, 3⟩, []⟩,
      ⟨"", ⟨1, 1⟩, "+".toList⟩] = .ok "a+bXYd".toList := rfl
  obtain ⟨hover, hapart, hsubstituted⟩ := (hiff _).mp happly
  exact ⟨_, rfl, hforward, hover, hapart, hsubstituted, happly,
    (hperm _ (List.reverse_perm _)).trans happly⟩

end Fix

end EbnfKit
