import EbnfKit.Check.Repetition
import EbnfKit.Proofs.Meaning
import EbnfKit.Proofs.Parsing
import EbnfKit.Proofs.ReadBack

/-! # Blocks — equal neighbours and what they come to

    The factors of a term are cut into blocks of neighbours that are printed alike.  Items
    with separators between them can be cut in the same places and put together again:

      Separated s item ts xs   iff   Separated s (Separated s item) ts (xs cut into blocks)

    A block of `n` factors, written once with a count, means what it meant before:

      f * f * … * f = f ^ n -/

namespace EbnfKit

/-! ## Separated items in blocks -/

section Separated

variable {τ β γ : Type} {separates : τ → Prop} {item : List τ → β → Prop}

theorem Separated.append {ts us : List τ} {s : τ} {xs ys : List β}
    (hts : Separated separates item ts xs) (hs : separates s)
    (hus : Separated separates item us ys) :
    Separated separates item (ts ++ s :: us) (xs ++ ys) := by
  induction hts with
  | one hx => exact .cons hx hs hus
  | @cons ts x r vs xs hx hr _ ih =>
      rw [List.append_assoc, List.cons_append]
      exact .cons hx hr ih

/-- Between any two of the items there is a separator. -/
theorem Separated.split {xs ys : List β} (hxs : xs ≠ []) (hys : ys ≠ []) :
    ∀ {ts : List τ}, Separated separates item ts (xs ++ ys) →
      ∃ us s vs, ts = us ++ s :: vs ∧ separates s ∧ Separated separates item us xs ∧
        Separated separates item vs ys := by
  induction xs with
  | nil => exact absurd rfl hxs
  | cons x xs ih =>
      intro ts h
      cases xs with
      | nil =>
          cases h with
          | one _ => exact absurd rfl hys
          | @cons us _ s vs _ hx hs hrest => exact ⟨us, s, vs, rfl, hs, .one hx, hrest⟩
      | cons x' xs =>
          cases h with
          | @cons us _ r vs _ hx hr hrest =>
              obtain ⟨us', s, vs', rfl, hs, hus, hvs⟩ := ih (List.cons_ne_nil x' xs) hrest
              exact ⟨us ++ r :: us', s, vs', by simp, hs, .cons hx hr hus, hvs⟩

/-- Items can be cut into blocks. -/
theorem Separated.nest {members : γ → List β} {bs : List γ} (hne : bs ≠ [])
    (hmembers : ∀ b ∈ bs, members b ≠ []) :
    ∀ {ts : List τ}, Separated separates item ts (bs.flatMap members) →
      Separated separates (fun us b => Separated separates item us (members b)) ts bs := by
  induction bs with
  | nil => exact absurd rfl hne
  | cons b bs ih =>
      intro ts h
      obtain ⟨hb, hbs⟩ := List.forall_mem_cons.mp hmembers
      cases bs with
      | nil =>
          rw [List.flatMap_cons, List.flatMap_nil, List.append_nil] at h
          exact .one h
      | cons b' bs =>
          have hlater : (b' :: bs).flatMap members ≠ [] := by
            rw [List.flatMap_cons]
            simp [hbs b' List.mem_cons_self]
          obtain ⟨us, s, vs, rfl, hs, hus, hvs⟩ := Separated.split hb hlater h
          exact .cons hus hs (ih (List.cons_ne_nil b' bs) hbs hvs)

/-- Blocks can be put together. -/
theorem Separated.flatten {ts : List τ} {bs : List (List β)}
    (h : Separated separates (Separated separates item) ts bs) :
    Separated separates item ts bs.flatten := by
  induction h with
  | @one ts b hb =>
      rw [List.flatten_cons, List.flatten_nil, List.append_nil]
      exact hb
  | cons hb hs _ ih => exact hb.append hs ih

/-- Of two or more items none takes all of the pieces. -/
theorem Separated.proper {x : β} {xs : List β} (hlen : 1 < xs.length) :
    ∀ {ts : List τ}, Separated separates item ts xs → x ∈ xs →
      ∃ as us bs, ts = as ++ us ++ bs ∧ item us x ∧ (as ≠ [] ∨ bs ≠ []) := by
  intro ts h hx
  obtain ⟨ys, zs, rfl⟩ := List.append_of_mem hx
  -- there is a separator behind the item, or the item is the last one and there is one before
  cases zs with
  | cons z zs =>
      obtain ⟨us, s, vs, rfl, -, hus, -⟩ :=
        @Separated.split _ _ _ _ (ys ++ [x]) (z :: zs) (by simp) (List.cons_ne_nil z zs) ts
          (by rwa [List.append_assoc])
      cases ys with
      | nil =>
          cases hus with
          | one hx => exact ⟨[], us, s :: vs, rfl, hx, Or.inr (List.cons_ne_nil s vs)⟩
          | cons _ _ hrest => exact absurd rfl hrest.ne_nil
      | cons y ys =>
          obtain ⟨as, r, ws, rfl, -, -, hws⟩ :=
            Separated.split (List.cons_ne_nil y ys) (List.cons_ne_nil x []) hus
          cases hws with
          | one hx =>
              exact ⟨as ++ [r], ws, s :: vs, by simp, hx, Or.inr (List.cons_ne_nil s vs)⟩
          | cons _ _ hrest => exact absurd rfl hrest.ne_nil
  | nil =>
      have hys : ys ≠ [] := by
        rintro rfl
        exact absurd hlen (Nat.lt_irrefl 1)
      obtain ⟨as, s, us, rfl, -, -, hus⟩ := Separated.split hys (List.cons_ne_nil x []) h
      cases hus with
      | one hx => exact ⟨as ++ [s], us, [], by simp, hx, Or.inl (by simp)⟩
      | cons _ _ hrest => exact absurd rfl hrest.ne_nil

end Separated

namespace Run

/-! ## Blocks of a term -/

/-- The factors of a block. -/
def members (block : Factor Span × List (Factor Span)) : List (Factor Span) :=
  block.1 :: block.2

/-- All factors are in blocks, in order. -/
theorem flatMap_members_blocks (fs : List (Factor Span)) : (blocks fs).flatMap members = fs := by
  induction fs with
  | nil => rfl
  | cons f fs ih =>
      rw [blocks]
      -- a factor joins the block behind it, or begins its own
      cases hb : blocks fs with
      | nil =>
          rw [hb] at ih
          rw [← ih]
          rfl
      | cons b rest =>
          rw [hb] at ih
          by_cases heq : f.render = b.1.render
          · simp only [if_pos heq, ← ih]
            rfl
          · simp only [if_neg heq, ← ih]
            rfl

/-- The factors of a block are printed alike. -/
theorem render_of_mem_blocks {fs : List (Factor Span)} :
    ∀ b ∈ blocks fs, ∀ f ∈ members b, f.render = b.1.render := by
  induction fs with
  | nil => exact fun _ h => nomatch h
  | cons f fs ih =>
      rw [blocks]
      cases hb : blocks fs with
      | nil =>
          intro b hmem g hg
          rw [List.mem_singleton.mp hmem] at hg ⊢
          rw [List.mem_singleton.mp hg]
      | cons b rest =>
          rw [hb] at ih
          obtain ⟨hfirst, hlater⟩ := List.forall_mem_cons.mp ih
          by_cases heq : f.render = b.1.render
          · simp only [if_pos heq]
            refine List.forall_mem_cons.mpr ⟨?_, hlater⟩
            refine List.forall_mem_cons.mpr ⟨rfl, fun g hg => ?_⟩
            exact (hfirst g hg).trans heq.symm
          · simp only [if_neg heq]
            refine List.forall_mem_cons.mpr ⟨?_, List.forall_mem_cons.mpr ⟨hfirst, hlater⟩⟩
            intro g hg
            rw [List.mem_singleton.mp hg]

/-- A run is a block of two factors or more. -/
theorem ofBlock?_eq_some_iff {b : Factor Span × List (Factor Span)} {r : Run} :
    ofBlock? b = some r ↔ 1 < (members b).length ∧ r.factor = b.1 ∧ r.count = (members b).length ∧
      r.span = b.1.mark.join (b.2.getLast?.getD b.1).mark := by
  obtain ⟨f, fs⟩ := b
  obtain ⟨factor, count, span⟩ := r
  cases fs with
  | nil => simp [ofBlock?, members]
  | cons g gs =>
      rw [ofBlock?, List.getLast?_cons]
      simp only [Option.some.injEq, Run.mk.injEq, members, List.length_cons, Option.getD_some]
      constructor
      · rintro ⟨rfl, rfl, rfl⟩
        exact ⟨by omega, rfl, rfl, rfl⟩
      · rintro ⟨-, rfl, rfl, rfl⟩
        exact ⟨rfl, rfl, rfl⟩

theorem mem_ofTerm {t : Term Span} {r : Run} :
    r ∈ ofTerm t ↔ ∃ b ∈ blocks t.factors, ofBlock? b = some r := by
  rw [ofTerm, List.mem_filterMap]

/-! ## Runs written once -/

/-- The factor that a run is written as. -/
def once (r : Run) : Factor Span :=
  if r.factor.isPlain then .mk r.span (some r.count) r.factor.primary none
  else .mk r.span (some r.count)
    (.bracketed r.span .group (.mk r.span (.mk r.span r.factor []) [])) none

/-- A plain factor is its primary. -/
theorem eq_of_isPlain {α : Type} {f : Factor α} (h : f.isPlain = true) :
    f = .mk f.mark none f.primary none := by
  obtain ⟨m, n, p, x⟩ := f
  simp only [Factor.isPlain, Factor.count, Factor.exception, Bool.and_eq_true,
    Option.isNone_iff_eq_none] at h
  obtain ⟨rfl, rfl⟩ := h
  rfl

theorem render_once (r : Run) : r.once.render = r.counted := by
  rw [once, counted]
  by_cases h : r.factor.isPlain = true
  · have hprimary : r.factor.render = r.factor.primary.render := by
      rw [eq_of_isPlain h, Factor.render, Primary.renderException, List.append_nil]
      rfl
    rw [if_pos h, if_pos h, Factor.render, hprimary, Primary.renderException, List.append_nil]
  · rw [if_neg h, if_neg h, Factor.render, Primary.renderException, List.append_nil,
      Primary.render, Expression.render, Term.renderOthers, Term.render, Factor.renderOthers,
      List.append_nil, List.append_nil]
    simp [Bracket.opening, Bracket.closing]

theorem lexemes_once (r : Run) : r.once.lexemes = countLexemes (some r.count) ++
    if r.factor.isPlain then r.factor.lexemes else .sign '(' :: (r.factor.lexemes ++ [.sign ')']) := by
  rw [once]
  by_cases h : r.factor.isPlain = true
  · have hprimary : r.factor.lexemes = r.factor.primary.lexemes := by
      rw [eq_of_isPlain h, Factor.lexemes, Primary.lexemesException, List.append_nil]
      rfl
    rw [if_pos h, if_pos h, Factor.lexemes, Primary.lexemesException, List.append_nil, hprimary]
  · rw [if_neg h, if_neg h, Factor.lexemes, Primary.lexemesException, List.append_nil,
      Primary.lexemes, Expression.lexemes, Term.lexemesOthers, Term.lexemes, Factor.lexemesOthers,
      List.append_nil, List.append_nil]
    rfl

/-- Writing a run once takes a number, signs and the factor. -/
theorem once_lexemes {q : Lexeme → Prop} {r : Run} (hsign : ∀ c ∈ signs, q (.sign c))
    (hcount : q ⟨.number, Text.ofNat r.count⟩) (hfactor : ∀ l ∈ r.factor.lexemes, q l) :
    ∀ l ∈ r.once.lexemes, q l := by
  have hcounted : ∀ l ∈ countLexemes (some r.count), q l :=
    List.forall_mem_cons.mpr ⟨hcount, List.forall_mem_singleton.mpr (hsign '*' (by decide))⟩
  rw [lexemes_once]
  refine List.forall_mem_append.mpr ⟨hcounted, ?_⟩
  split
  · exact hfactor
  · exact List.forall_mem_cons.mpr ⟨hsign '(' (by decide),
      List.forall_mem_append.mpr ⟨hfactor, List.forall_mem_singleton.mpr (hsign ')' (by decide))⟩⟩

/-- A run written once means as many copies of its factor as it counts. -/
theorem denote_once {i : Interpretation} (r : Run) :
    r.once.denote i = r.factor.denote i ^ r.count := by
  rw [once]
  by_cases h : r.factor.isPlain = true
  · rw [if_pos h, eq_of_isPlain h, Factor.denote_plain, Factor.denote_mk]
    rfl
  · rw [if_neg h, Factor.denote_mk, Primary.denote_group]
    rfl

/-- A run written once nests as deep as its factor, or deeper by the group around that. -/
theorem nesting_once (r : Run) :
    r.once.nesting = r.factor.nesting + if r.factor.isPlain then 0 else 1 := by
  rw [once]
  by_cases h : r.factor.isPlain = true
  · rw [if_pos h, if_pos h, eq_of_isPlain h, Factor.nesting, Factor.nesting]
    rfl
  · rw [if_neg h, if_neg h, Factor.nesting, Primary.nestingOpt, Primary.nesting,
      Expression.nesting, Term.nestingAll, Term.nesting, Factor.nestingAll]
    simp

/-- The factors of a block mean the same. -/
theorem denote_members {i : Interpretation} {fs : List (Factor Span)}
    {b : Factor Span × List (Factor Span)} (hb : b ∈ blocks fs)
    (hwhole : ∀ f ∈ members b, ∀ l ∈ f.lexemes, l.Whole ∧ l.Fits) :
    ((members b).map (Factor.denote i)).prod = b.1.denote i ^ (members b).length := by
  have hsame : ∀ f ∈ members b, f.denote i = b.1.denote i := by
    intro f hf
    -- blocks go by the text, and factors with the same text have the same tree
    have hshape := Factor.shape_eq_of_render (hwhole f hf) (hwhole b.1 List.mem_cons_self)
      (render_of_mem_blocks b hb f hf)
    rw [← denote_shape.factors f, hshape, denote_shape.factors]
  rw [List.map_congr_left hsame, List.map_const', List.prod_replicate]

end Run

end EbnfKit
