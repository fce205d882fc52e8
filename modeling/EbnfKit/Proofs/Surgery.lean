import EbnfKit.Proofs.Scopes

/-! # Surgery — what fixes do to a tree

    The tokens of a node are edited, and then they derive a node again.  It means the same,
    and it nests no deeper than before, unless a run was counted whose factor needed a group:

      ts derives x   implies   the edited ts derive some x',
                               x' means what x does,
                               nesting of x' ≤ n  iff  no counted run is too deep for n

    A fix of the node itself takes all tokens of a part of it, so that the part is replaced
    as a whole.  Where there is none, the parts are edited on their own. -/

namespace EbnfKit

variable {fixes : List Fix}

/-! ## Revisions -/

/-- What fixes turn into something else that means the same.  What fitted in `n` brackets
    still does, unless the fixes count a run too deep in it. -/
structure Revises {δ : Type} (fixes : List Fix) (depth : Nat) (runs : List (Nat × Run))
    (means means' : Interpretation → δ) (fits fits' : Nat → Prop) : Prop where
  same : ∀ i, means' i = means i
  fits_iff : ∀ n, fits n → (fits' n ↔ ∀ kr ∈ runs, ¬TooDeep fixes (depth + n) kr)

/-- The fixes turn the expression into the other one. -/
abbrev Expression.Revised (fixes : List Fix) (depth : Nat) (e : Expression Span)
    (e' : Expression Unit) : Prop :=
  Revises fixes depth (e.runsAt depth) (fun i => e.denote i) (fun i => e'.denote i)
    (fun n => e.nesting ≤ n) fun n => e'.nesting ≤ n

/-- The fixes turn the term into the other one. -/
abbrev Term.Revised (fixes : List Fix) (depth : Nat) (t : Term Span) (t' : Term Unit) : Prop :=
  Revises fixes depth (t.runsAt depth) (fun i => t.denote i) (fun i => t'.denote i)
    (fun n => t.nesting ≤ n) fun n => t'.nesting ≤ n

/-- The fixes turn the factor into the other one. -/
abbrev Factor.Revised (fixes : List Fix) (depth : Nat) (f : Factor Span) (f' : Factor Unit) :
    Prop :=
  Revises fixes depth (f.runsAt depth) (fun i => f.denote i) (fun i => f'.denote i)
    (fun n => f.nesting ≤ n) fun n => f'.nesting ≤ n

/-- The fixes turn the primary into the other one. -/
abbrev Primary.Revised (fixes : List Fix) (depth : Nat) (p : Primary Span) (p' : Primary Unit) :
    Prop :=
  Revises fixes depth (p.runsAt depth) (fun i => p.denote i) (fun i => p'.denote i)
    (fun n => p.nesting ≤ n) fun n => p'.nesting ≤ n

/-- Wherever the expression stands, fixes within it turn it into another one. -/
def Expression.Revisable (fixes : List Fix) (e : Expression Span) : Prop :=
  ∀ depth ts, Legible ts → Expression.Derives .placed ts e → Within fixes e.fixes ts →
    ∃ e', Expression.Derives .bare (editTokens fixes ts) e' ∧ e.Revised fixes depth e'

/-- Wherever the term stands, fixes within it turn it into another one. -/
def Term.Revisable (fixes : List Fix) (t : Term Span) : Prop :=
  ∀ depth ts, Legible ts → Term.Derives .placed ts t → Within fixes t.fixes ts →
    ∃ t', Term.Derives .bare (editTokens fixes ts) t' ∧ t.Revised fixes depth t'

/-- Wherever the factor stands, fixes within it turn it into another one. -/
def Factor.Revisable (fixes : List Fix) (f : Factor Span) : Prop :=
  ∀ depth ts, Legible ts → Factor.Derives .placed ts f → Within fixes f.fixes ts →
    ∃ f', Factor.Derives .bare (editTokens fixes ts) f' ∧ f.Revised fixes depth f'

/-- Wherever the primary stands, fixes within it turn it into another one. -/
def Primary.Revisable (fixes : List Fix) (p : Primary Span) : Prop :=
  ∀ depth ts, Legible ts → Primary.Derives .placed ts p → Within fixes p.fixes ts →
    ∃ p', Primary.Derives .bare (editTokens fixes ts) p' ∧ p.Revised fixes depth p'

/-! ## Several parts -/

section Several

variable {β γ δ : Type} {depth : Nat} {runs : β → List (Nat × Run)}
  {means : β → Interpretation → δ} {means' : γ → Interpretation → δ} {fits : β → Nat → Prop}
  {fits' : γ → Nat → Prop}

/-- Parts that mean the same one by one mean the same together. -/
theorem Revises.several {xs : List β} {ys : List γ}
    (h : List.Forall₂ (fun x y => Revises fixes depth (runs x) (means x) (means' y) (fits x) (fits' y))
      xs ys) :
    Revises fixes depth (xs.flatMap runs) (fun i => xs.map fun x => means x i)
      (fun i => ys.map fun y => means' y i) (fun n => ∀ x ∈ xs, fits x n)
      fun n => ∀ y ∈ ys, fits' y n := by
  induction h with
  | nil =>
      refine ⟨fun _ => rfl, fun n _ => ?_⟩
      simp
  | @cons x y xs ys hxy _ ih =>
      constructor
      · intro i
        rw [List.map_cons, List.map_cons, hxy.same, ih.same]
      · intro n hn
        obtain ⟨hx, hxs⟩ := List.forall_mem_cons.mp hn
        rw [List.forall_mem_cons, hxy.fits_iff n hx, ih.fits_iff n hxs, List.flatMap_cons,
          List.forall_mem_append]

/-- What has the same meaning and fits alike is as good. -/
theorem Revises.congr {δ' : Type} {runs runs' : List (Nat × Run)} {means means' : Interpretation → δ}
    {fits fits' : Nat → Prop} (h : Revises fixes depth runs means means' fits fits') (f : δ → δ')
    {fits₁ fits₁' : Nat → Prop} (hfits : ∀ n, fits₁ n ↔ fits n) (hfits' : ∀ n, fits₁' n ↔ fits' n)
    (hruns : ∀ kr, (kr ∈ runs' ∧ Fix.countRun kr.2 ∈ fixes) ↔
      kr ∈ runs ∧ Fix.countRun kr.2 ∈ fixes) :
    Revises fixes depth runs' (fun i => f (means i)) (fun i => f (means' i)) fits₁ fits₁' := by
  constructor
  · intro i
    rw [h.same]
  · intro n hn
    rw [hfits', h.fits_iff n ((hfits n).mp hn)]
    constructor
    · intro hall kr hkr hdeep
      exact hall kr ((hruns kr).mp ⟨hkr, hdeep.1⟩).1 hdeep
    · intro hall kr hkr hdeep
      exact hall kr ((hruns kr).mpr ⟨hkr, hdeep.1⟩).1 hdeep

/-- **Items are edited one by one**, and the separators between them stay. -/
theorem Separated.edited {kind : TokenKind} {item : List Token → β → Prop}
    {item' : List Lexeme → γ → Prop} {q : β → γ → Prop} {own : β → List Fix} {ts : List Token}
    {xs : List β} (h : Separated (fun s => Reading.placed.kind s = kind) item ts xs)
    (hts : Legible ts) (hrewrite : ∀ x ∈ xs, ∀ us, Legible us → item us x → ∀ f ∈ own x, f.Rewrites us)
    (hwithin : Within fixes (xs.flatMap own) ts)
    (hitem : ∀ x ∈ xs, ∀ us, Legible us → item us x → Within fixes (own x) us →
      ∃ y, item' (editTokens fixes us) y ∧ q x y) :
    ∃ ys, Separated (fun s => Reading.bare.kind s = kind) item' (editTokens fixes ts) ys ∧
      List.Forall₂ q xs ys := by
  induction h with
  | @one ts x hx =>
      rw [List.flatMap_singleton] at hwithin
      obtain ⟨y, hy, hq⟩ := hitem x List.mem_cons_self ts hts hx hwithin
      exact ⟨[y], .one hy, .cons hq .nil⟩
  | @cons ts x s us xs hx hs hrest ih =>
      have hlegible : Legible us := hts.right.sublist (List.sublist_cons_self s us)
      obtain ⟨hrewritex, hrewritexs⟩ := List.forall_mem_cons.mp hrewrite
      have hlater : ∀ f ∈ xs.flatMap own, f.Rewrites us := by
        intro f hf
        obtain ⟨z, hz, hfz⟩ := List.mem_flatMap.mp hf
        obtain ⟨vs, hvs, hderives⟩ := hrest.sublist hz
        exact (hrewritexs z hz vs (hlegible.sublist hvs) hderives f hfz).mono hvs
      rw [List.flatMap_cons] at hwithin
      -- no fix is over the separator, for none of those of the items is
      obtain ⟨hfirst, hsus⟩ := hwithin.append hts.scanned (hrewritex ts hts.left hx)
        fun f hf => (hlater f hf).mono (List.sublist_cons_self s us)
      obtain ⟨hlast, hedit⟩ := @Within.behind _ (xs.flatMap own) [s] us hsus hts.right.scanned hlater
      obtain ⟨y, hy, hq⟩ := hitem x List.mem_cons_self ts hts.left hx hfirst
      obtain ⟨ys, hys, hqs⟩ := ih hlegible hrewritexs hlast
        fun z hz => hitem z (List.mem_cons_of_mem x hz)
      refine ⟨y :: ys, ?_, .cons hq hqs⟩
      rw [editTokens_append, ← List.singleton_append, hedit]
      exact .cons hy hs hys

end Several

/-! ## Parentheses -/

/-- Where the parentheses of a primary are dropped, the factor in it is left. -/
theorem Primary.dropped (hordered : Ordered fixes) {plain : Bool} {p : Primary Span}
    {q : RedundantGroup} (hq : RedundantGroup.ofPrimary? plain p = some q)
    (hmem : Fix.dropParentheses q ∈ fixes) (depth : Nat) {ts : List Token} (hts : Legible ts)
    (h : Primary.Derives .placed ts p) :
    editTokens fixes ts = q.inner.lexemes ∧ Wholes q.inner.lexemes ∧
      Revises fixes depth (p.runsAt depth) (fun i => p.denote i) (fun i => q.inner.denote i)
        (fun n => p.nesting ≤ n) fun n => q.inner.nesting ≤ n := by
  obtain ⟨-, m, m', rfl⟩ := RedundantGroup.of_ofPrimary? hq
  have hne := (Parser.derives_mark.primaries _ ts h).1
  obtain ⟨o, us, c, rfl, hinner, hspan⟩ := h.inside
  have hspan : q.span = Span.over ([o] ++ us ++ [c]) := hspan
  have hnesting : Primary.nesting (.bracketed q.span .group (.mk m (.mk m' q.inner []) []))
      = q.inner.nesting + 1 := by
    rw [Primary.nesting, Expression.nesting, Term.nestingAll, Term.nesting, Factor.nestingAll]
    simp
  have hwhole : Wholes q.inner.lexemes :=
    fun l hl => (hts.left.right.factor hinner.single l hl).1
  refine ⟨?_, hwhole, fun i => (Primary.denote_group q.span m m' q.inner).symm, ?_⟩
  · have hwritten := @Fix.plain_of_render (Fix.dropParentheses q) q.inner rfl hwhole
    rw [editTokens_replaced hordered hmem hts.scanned hne (congrArg Span.start hspan)
      (Nat.le_of_eq (congrArg Span.stop hspan.symm)), hwritten.1]
  · intro n hn
    rw [hnesting] at hn
    refine iff_of_true (by omega) ?_
    -- no run between the parentheses is counted as well
    intro kr hkr hdeep
    refine not_mem_of_inside hordered hmem hts.scanned hspan (Or.inl (List.cons_ne_nil o [])) ?_
      hdeep.1
    exact fixes_rewrite.expressions _ us hts.left.right hinner _
      (countRun_mem_fixes.expressions _ (depth + 1) kr hkr)

/-- A primary that a factor holds is revised with it, unless it is all there is to the factor
    and its parentheses are dropped. -/
theorem Primary.Revisable.within (hordered : Ordered fixes) {plain : Bool} {p : Primary Span}
    (hp : p.Revisable fixes)
    (hkept : plain = true → ∀ q, RedundantGroup.ofPrimary? true p = some q →
      Fix.dropParentheses q ∉ fixes) (depth : Nat) {ts : List Token} (hts : Legible ts)
    (h : Primary.Derives .placed ts p) (hwithin : Within fixes (p.fixesIn plain) ts) :
    ∃ p', Primary.Derives .bare (editTokens fixes ts) p' ∧ p.Revised fixes depth p' := by
  by_cases hdrop : ∃ q, RedundantGroup.ofPrimary? plain p = some q ∧ Fix.dropParentheses q ∈ fixes
  · obtain ⟨q, hq, hmem⟩ := hdrop
    obtain ⟨hedit, hwhole, hrevises⟩ := Primary.dropped hordered hq hmem depth hts h
    -- what is left is a factor, and here only its primary can be left
    have hplain : q.inner.isPlain = true := by
      refine (RedundantGroup.of_ofPrimary? hq).1.resolve_left fun hplain => ?_
      rw [hplain] at hq
      exact hkept hplain q hq hmem
    have hinner := Run.eq_of_isPlain hplain
    generalize q.inner = f at hedit hwhole hrevises hinner
    rw [hinner] at hedit hwhole hrevises
    rw [Factor.lexemes, Primary.lexemesException, List.append_nil] at hedit hwhole
    refine ⟨f.primary.shape, ?_, ?_⟩
    · rw [hedit]
      exact lexemes_derive.primaries f.primary hwhole
    · constructor
      · intro i
        have hsame := hrevises.same i
        simp only [Factor.denote_plain] at hsame
        exact (denote_shape.primaries f.primary).trans hsame
      · intro n hn
        have hfits := hrevises.fits_iff n hn
        rw [Factor.nesting, Primary.nestingOpt, Nat.max_zero] at hfits
        rw [nesting_shape.primaries f.primary]
        exact hfits
  · refine hp depth ts hts h (hwithin.mono ?_)
    intro f hf hmem
    rcases List.mem_append.mp hf with hf | hf
    · obtain ⟨q, hq, rfl⟩ := List.mem_map.mp hf
      exact absurd ⟨q, Option.mem_toList.mp hq, hmem⟩ hdrop
    · exact hf

/-- The fixes in an exception that may be missing stand in it. -/
theorem Signed.rewrite {x : Option (Primary Span)} {ts : List Token} (hts : Legible ts)
    (h : Signed (fun s => Reading.placed.kind s = .exceptionSymbol) (Primary.Derives .placed) ts x) :
    ∀ f ∈ x.toList.flatMap (Primary.fixesIn false), f.Rewrites ts := by
  cases h with
  | none => exact List.forall_mem_nil _
  | @some s us q _ hq =>
      rw [Option.toList_some, List.flatMap_singleton]
      have hus := hts.sublist (List.sublist_cons_self s us)
      intro f hf
      exact (Primary.fixesIn_rewrite hus hq (fixes_rewrite.primaries q us hus hq) f hf).mono
        (List.sublist_cons_self s us)

/-- An exception that may be missing is edited behind its sign. -/
theorem Signed.edited (hordered : Ordered fixes) {x : Option (Primary Span)}
    (hx : ∀ q ∈ x, q.Revisable fixes) (depth : Nat) {ts : List Token} (hts : Legible ts)
    (h : Signed (fun s => Reading.placed.kind s = .exceptionSymbol) (Primary.Derives .placed) ts x)
    (hwithin : Within fixes (x.toList.flatMap (Primary.fixesIn false)) ts) :
    ∃ x', Signed (fun s => Reading.bare.kind s = .exceptionSymbol) (Primary.Derives .bare)
        (editTokens fixes ts) x' ∧
      Revises fixes depth (x.toList.flatMap (Primary.runsAt depth))
        (fun i => x.map fun q => q.denote i) (fun i => x'.map fun q => q.denote i)
        (fun n => ∀ q ∈ x, q.nesting ≤ n) fun n => ∀ q ∈ x', q.nesting ≤ n := by
  cases h with
  | none =>
      refine ⟨Option.none, .none, fun _ => rfl, fun n _ => ?_⟩
      simp
  | @some s us q hs hq =>
      rw [Option.toList_some, List.flatMap_singleton] at hwithin ⊢
      have hus := hts.sublist (List.sublist_cons_self s us)
      obtain ⟨hwithin, hedit⟩ := @Within.behind _ _ [s] us hwithin hts.scanned
        (Primary.fixesIn_rewrite hus hq (fixes_rewrite.primaries q us hus hq))
      obtain ⟨q', hq', hrevised⟩ := @Primary.Revisable.within _ hordered false q (hx q rfl)
        (fun h => nomatch h) depth us hus hq hwithin
      refine ⟨Option.some q', ?_, ?_⟩
      · rw [← List.singleton_append, hedit]
        exact .some hs hq'
      · constructor
        · intro i
          exact congrArg Option.some (hrevised.same i)
        · intro n hn
          rw [← hrevised.fits_iff n (hn q rfl)]
          simp

/-- Where the parentheses of a plain factor are dropped, the factor in them takes its place. -/
theorem Factor.replaced (hordered : Ordered fixes) {f : Factor Span} (hplain : f.isPlain = true)
    {q : RedundantGroup} (hq : RedundantGroup.ofPrimary? true f.primary = some q)
    (hmem : Fix.dropParentheses q ∈ fixes) (depth : Nat) {ts : List Token} (hts : Legible ts)
    (h : Factor.Derives .placed ts f) :
    ∃ f', Factor.Derives .bare (editTokens fixes ts) f' ∧ f.Revised fixes depth f' := by
  rw [Run.eq_of_isPlain hplain] at h ⊢
  cases h with
  | mk hcount hprimary hsigned _ =>
      cases hcount
      cases hsigned
      rw [List.append_nil, List.nil_append] at hts ⊢
      obtain ⟨hedit, hwhole, hrevises⟩ := Primary.dropped hordered hq hmem depth hts hprimary
      refine ⟨q.inner.shape, ?_, ?_⟩
      · rw [hedit]
        exact lexemes_derive.factors q.inner hwhole
      · constructor
        · intro i
          rw [denote_shape.factors, Factor.denote_plain]
          exact hrevises.same i
        · intro n hn
          rw [Factor.nesting, Primary.nestingOpt, Nat.max_zero] at hn
          rw [nesting_shape.factors, Factor.runsAt_mk, Option.toList_none, List.flatMap_nil,
            List.append_nil]
          exact hrevises.fits_iff n hn

theorem Factor.revisable (hordered : Ordered fixes) {m : Span} {n : Option Nat} {p : Primary Span}
    {x : Option (Primary Span)} (hp : p.Revisable fixes) (hx : ∀ q ∈ x, q.Revisable fixes) :
    (Factor.mk m n p x).Revisable fixes := by
  intro depth ts hts h hwithin
  -- of a plain factor all may go but what is in its parentheses
  by_cases hdrop : (Factor.mk m n p x).isPlain = true ∧
      ∃ q, RedundantGroup.ofPrimary? true p = some q ∧ Fix.dropParentheses q ∈ fixes
  · obtain ⟨hplain, q, hq, hmem⟩ := hdrop
    exact Factor.replaced hordered hplain hq hmem depth hts h
  · -- the count stays, and the primaries are edited on their own
    cases h with
    | @mk cs ps xs _ _ _ _ hcount hprimary hsigned _ =>
        have hps := hts.left.right
        have hrewritep := @Primary.fixesIn_rewrite (Factor.mk m n p x).isPlain p ps hps hprimary
          (fixes_rewrite.primaries p ps hps hprimary)
        have hrewritex := hsigned.rewrite hts.right
        have hown : Within fixes (([] ++ p.fixesIn (Factor.mk m n p x).isPlain) ++
            x.toList.flatMap (Primary.fixesIn false)) (cs ++ ps ++ xs) :=
          hwithin.mono fun f hf _ => Factor.mem_fixes_mk.mp hf
        obtain ⟨hcps, hxs⟩ := hown.append hts.scanned
          (fun f hf => (hrewritep f hf).mono (List.sublist_append_right cs ps)) hrewritex
        obtain ⟨hcs, hps'⟩ := hcps.append hts.scanned.left (List.forall_mem_nil _) hrewritep
        obtain ⟨p', hp', hrevisedp⟩ := hp.within hordered
          (fun hplain q hq hmem => hdrop ⟨hplain, q, hq, hmem⟩) depth hps hprimary hps'
        obtain ⟨x', hx', hrevisedx⟩ := hsigned.edited hordered hx depth hts.right hxs
        refine ⟨.mk () n p' x', ?_, ?_⟩
        · rw [editTokens_append, editTokens_append, hcs.untouched]
          refine .mk (hcount.carry (Reading.carries_shapes fun _ => ⟨(), trivial⟩) ?_) hp' hx' trivial
          exact List.map_id _
        · constructor
          · intro i
            have hsamex := hrevisedx.same i
            rw [Factor.denote_mk, Factor.denote_mk, hrevisedp.same i]
            exact congrArg (fun l => excluding (p.denote i) l ^ n.getD 1) hsamex
          · intro k hk
            obtain ⟨hkp, hkx⟩ := Factor.nesting_le_iff.mp hk
            rw [Factor.nesting_le_iff, hrevisedp.fits_iff k hkp, hrevisedx.fits_iff k hkx,
              Factor.runsAt_mk, List.forall_mem_append]

/-! ## Runs -/

/-- The fixes in a block of factors, among them that for the block itself. -/
def Run.fixesIn (b : Factor Span × List (Factor Span)) : List Fix :=
  (ofBlock? b).toList.map Fix.countRun ++ (members b).flatMap Factor.fixes

/-- The runs in a block of factors, itself among them. -/
def Run.runsIn (depth : Nat) (b : Factor Span × List (Factor Span)) : List (Nat × Run) :=
  (ofBlock? b).toList.map (fun r => (depth, r)) ++ (members b).flatMap (Factor.runsAt depth)

theorem Run.mem_fixesIn {m : Span} {g : Factor Span} {gs : List (Factor Span)} {f : Fix} :
    f ∈ (Term.mk m g gs).fixes ↔ f ∈ (blocks (g :: gs)).flatMap fixesIn := by
  have hfactors := congrArg (List.flatMap Factor.fixes) (flatMap_members_blocks (g :: gs))
  rw [List.flatMap_assoc] at hfactors
  rw [Term.fixes_mk, ← hfactors, List.mem_append, List.mem_map]
  simp only [List.mem_flatMap, fixesIn, List.mem_append, List.mem_map, Option.mem_toList,
    mem_ofTerm, Term.factors]
  grind

theorem Run.mem_runsIn {depth : Nat} {m : Span} {g : Factor Span} {gs : List (Factor Span)}
    {kr : Nat × Run} :
    kr ∈ (Term.mk m g gs).runsAt depth ↔ kr ∈ (blocks (g :: gs)).flatMap (runsIn depth) := by
  have hfactors := congrArg (List.flatMap (Factor.runsAt depth)) (flatMap_members_blocks (g :: gs))
  rw [List.flatMap_assoc] at hfactors
  rw [Term.runsAt_mk, ← hfactors, List.mem_append, List.mem_map]
  simp only [List.mem_flatMap, runsIn, List.mem_append, List.mem_map, Option.mem_toList,
    mem_ofTerm, Term.factors]
  grind

/-- Where a run is counted, its factor with a count is left of its block. -/
theorem Run.counted_block (hordered : Ordered fixes) {fs : List (Factor Span)}
    {b : Factor Span × List (Factor Span)} (hb : b ∈ blocks fs) {r : Run}
    (hr : ofBlock? b = some r) (hmem : Fix.countRun r ∈ fixes) (depth : Nat) {ts : List Token}
    (hts : Legible ts) (h : Separated (fun s => Reading.placed.kind s = .comma)
      (Factor.Derives .placed) ts (members b)) :
    editTokens fixes ts = r.once.lexemes ∧ Wholes r.once.lexemes ∧
      Revises fixes depth (runsIn depth b)
        (fun i => ((members b).map fun f => f.denote i).prod) (fun i => r.once.denote i)
        (fun n => ∀ f ∈ members b, f.nesting ≤ n) fun n => r.once.nesting ≤ n := by
  obtain ⟨hne, hspan, hlexemes⟩ := Run.rewrites hts h hr
  obtain ⟨hlen, hfactor, hcount, -⟩ := ofBlock?_eq_some_iff.mp hr
  have hwhole : Wholes r.once.lexemes := fun l hl => (hlexemes l hl).1
  have hspan : (Fix.countRun r).span = Span.over ts := hspan
  refine ⟨?_, hwhole, ?_, ?_⟩
  · have hwritten := @Fix.plain_of_render (Fix.countRun r) r.once (render_once r).symm hwhole
    rw [editTokens_replaced hordered hmem hts.scanned hne (congrArg Span.start hspan)
      (Nat.le_of_eq (congrArg Span.stop hspan.symm)), hwritten.1]
  · intro i
    have hmembers : ∀ f ∈ members b, ∀ l ∈ f.lexemes, l.Whole ∧ l.Fits := by
      intro f hf
      obtain ⟨us, hus, hderives⟩ := h.sublist hf
      exact (hts.sublist hus).factor hderives
    rw [denote_once, hfactor, hcount]
    exact (denote_members hb hmembers).symm
  · intro n hn
    -- no run within the block is counted as well
    have hothers : ∀ kr ∈ (members b).flatMap (Factor.runsAt depth), ¬TooDeep fixes (depth + n) kr := by
      intro kr hkr hdeep
      obtain ⟨f, hf, hkr⟩ := List.mem_flatMap.mp hkr
      obtain ⟨as, us, bs, rfl, hderives, hproper⟩ := h.proper hlen hf
      refine not_mem_of_inside hordered hmem hts.scanned hspan hproper ?_ hdeep.1
      exact fixes_rewrite.factors f us hts.left.right hderives _
        (countRun_mem_fixes.factors f depth kr hkr)
    -- the run itself is too deep if its factor needs a group that does not fit
    have hbase := hn b.1 List.mem_cons_self
    rw [← hfactor] at hbase
    have hown : ¬TooDeep fixes (depth + n) (depth, r) ↔ r.once.nesting ≤ n := by
      rw [nesting_once]
      cases hplain : r.factor.isPlain with
      | true => exact iff_of_true (fun h => by rw [h.2.1] at hplain; cases hplain) hbase
      | false =>
          constructor
          · intro hdeep
            by_contra hlt
            refine hdeep ⟨hmem, hplain, ?_⟩
            simp only [Bool.false_eq_true, if_false] at hlt
            show depth + n < depth + 1 + r.factor.nesting
            omega
          · intro hle hdeep
            have hlt : depth + n < depth + 1 + r.factor.nesting := hdeep.2.2
            simp only [Bool.false_eq_true, if_false] at hle
            omega
    rw [runsIn, hr, Option.toList_some, List.map_singleton, List.forall_mem_append,
      List.forall_mem_singleton, hown]
    exact ⟨fun h => ⟨h, hothers⟩, fun h => h.1⟩

/-- Fixes turn a block of factors into factors. -/
theorem Run.block_revisable (hordered : Ordered fixes) {fs : List (Factor Span)}
    {b : Factor Span × List (Factor Span)} (hb : b ∈ blocks fs)
    (hmembers : ∀ f ∈ members b, f.Revisable fixes) (depth : Nat) {ts : List Token}
    (hts : Legible ts) (h : Separated (fun s => Reading.placed.kind s = .comma)
      (Factor.Derives .placed) ts (members b)) (hwithin : Within fixes (fixesIn b) ts) :
    ∃ gs, Separated (fun s => Reading.bare.kind s = .comma) (Factor.Derives .bare)
        (editTokens fixes ts) gs ∧
      Revises fixes depth (runsIn depth b)
        (fun i => ((members b).map fun f => f.denote i).prod)
        (fun i => (gs.map fun g => g.denote i).prod)
        (fun n => ∀ f ∈ members b, f.nesting ≤ n) fun n => ∀ g ∈ gs, g.nesting ≤ n := by
  by_cases hcount : ∃ r, ofBlock? b = some r ∧ Fix.countRun r ∈ fixes
  · obtain ⟨r, hr, hmem⟩ := hcount
    obtain ⟨hedit, hwhole, hrevises⟩ := counted_block hordered hb hr hmem depth hts h
    refine ⟨[r.once.shape], ?_, ?_, ?_⟩
    · rw [hedit]
      exact .one (lexemes_derive.factors r.once hwhole)
    · intro i
      rw [List.map_singleton, List.prod_singleton, denote_shape.factors]
      exact hrevises.same i
    · intro n hn
      rw [List.forall_mem_singleton, nesting_shape.factors]
      exact hrevises.fits_iff n hn
  · -- the factors are edited one by one
    have hown : ∀ r ∈ (ofBlock? b).toList, Fix.countRun r ∉ fixes :=
      fun r hr hmem => hcount ⟨r, Option.mem_toList.mp hr, hmem⟩
    have hwithin' : Within fixes ((members b).flatMap Factor.fixes) ts := by
      refine hwithin.mono fun f hf hmem => ?_
      rcases List.mem_append.mp hf with hf | hf
      · obtain ⟨r, hr, rfl⟩ := List.mem_map.mp hf
        exact absurd hmem (hown r hr)
      · exact hf
    obtain ⟨gs, hgs, hrevised⟩ := h.edited hts
      (fun f _ us hus hf => fixes_rewrite.factors f us hus hf) hwithin'
      (fun f hf us hus hderives hin => hmembers f hf depth us hus hderives hin)
    refine ⟨gs, hgs, ?_⟩
    have hseveral := Revises.several hrevised
    refine hseveral.congr List.prod (fun _ => Iff.rfl) (fun _ => Iff.rfl) ?_
    intro kr
    rw [runsIn, List.mem_append, List.mem_map]
    constructor
    · rintro ⟨⟨r, hr, rfl⟩ | hkr, hmem⟩
      · exact absurd hmem (hown r hr)
      · exact ⟨hkr, hmem⟩
    · rintro ⟨hkr, hmem⟩
      exact ⟨Or.inr hkr, hmem⟩

/-! ## Trees -/

theorem Term.revisable (hordered : Ordered fixes) {m : Span} {f : Factor Span}
    {fs : List (Factor Span)} (hfs : ∀ g ∈ f :: fs, g.Revisable fixes) :
    (Term.mk m f fs).Revisable fixes := by
  intro depth ts hts h hwithin
  cases h with
  | mk hsep _ =>
      have hsplit := Run.flatMap_members_blocks (f :: fs)
      have hnonempty : Run.blocks (f :: fs) ≠ [] := by
        intro hnil
        rw [hnil] at hsplit
        cases hsplit
      -- a term is its blocks, and each block is edited on its own
      have hblocks := @Separated.nest _ _ _ (fun s => Reading.placed.kind s = .comma)
        (Factor.Derives .placed) Run.members (Run.blocks (f :: fs)) hnonempty
        (fun _ _ => List.cons_ne_nil _ _) ts (by rw [hsplit]; exact hsep)
      have hmember : ∀ b ∈ Run.blocks (f :: fs), ∀ g ∈ Run.members b, g ∈ f :: fs := by
        intro b hb g hg
        rw [← hsplit]
        exact List.mem_flatMap.mpr ⟨b, hb, hg⟩
      have hrewrite : ∀ b ∈ Run.blocks (f :: fs), ∀ us, Legible us →
          Separated (fun s => Reading.placed.kind s = .comma) (Factor.Derives .placed) us
            (Run.members b) → ∀ x ∈ Run.fixesIn b, x.Rewrites us := by
        intro b _ us hus hb x hx
        rcases List.mem_append.mp hx with hx | hx
        · obtain ⟨r, hr, rfl⟩ := List.mem_map.mp hx
          exact Fix.countRun_rewrites hus hb (Option.mem_toList.mp hr)
        · obtain ⟨g, hg, hxg⟩ := List.mem_flatMap.mp hx
          obtain ⟨vs, hvs, hderives⟩ := hb.sublist hg
          exact (fixes_rewrite.factors g vs (hus.sublist hvs) hderives x hxg).mono hvs
      obtain ⟨gss, hgss, hrevised⟩ := hblocks.edited hts hrewrite
        (hwithin.mono fun x hx _ => Run.mem_fixesIn.mp hx)
        (fun b hb us hus hderives hin => Run.block_revisable hordered hb
          (fun g hg => hfs g (hmember b hb g hg)) depth hus hderives hin)
      have hflat := hgss.flatten
      obtain ⟨g, gs, hgs⟩ := List.exists_cons_of_ne_nil hflat.ne_nil
      have hseveral := Revises.several hrevised
      refine ⟨.mk () g gs, .mk (hgs ▸ hflat) trivial, ?_, ?_⟩
      · intro i
        rw [Term.denote_mk, Term.denote_mk, ← hgs, ← hsplit, List.map_flatten, List.prod_flatten,
          List.map_map, List.map_flatMap, List.flatMap_def, List.prod_flatten, List.map_map]
        exact congrArg List.prod (hseveral.same i)
      · intro n hn
        rw [Term.nesting_le_iff] at hn ⊢
        have hfits := hseveral.fits_iff n fun b hb f hf => hn f (hmember b hb f hf)
        rw [← hgs]
        simp only [List.mem_flatten, Run.mem_runsIn]
        rw [← hfits]
        exact ⟨fun h ys hys y hy => h y ⟨ys, hys, hy⟩, fun h y ⟨ys, hys, hy⟩ => h ys hys y hy⟩

theorem revisable (hordered : Ordered fixes) :
    Hereditary (Expression.Revisable fixes) (Term.Revisable fixes) (Factor.Revisable fixes)
      (Primary.Revisable fixes) where
  expression := by
    intro m t us ih depth ts hts h hwithin
    cases h with
    | mk hsep _ =>
        rw [Expression.fixes_mk] at hwithin
        obtain ⟨ys, hys, hrevised⟩ := hsep.edited hts
          (fun u _ vs hvs hu => fixes_rewrite.terms u vs hvs hu) hwithin
          (fun u hu vs hvs hderives hin => ih u hu depth vs hvs hderives hin)
        obtain ⟨y, ys, rfl⟩ := List.exists_cons_of_ne_nil hys.ne_nil
        have hseveral := Revises.several hrevised
        refine ⟨.mk () y ys, .mk hys trivial, ?_, ?_⟩
        · intro i
          rw [Expression.denote_mk, Expression.denote_mk]
          exact congrArg List.sum (hseveral.same i)
        · intro n hn
          rw [Expression.nesting_le_iff] at hn ⊢
          rw [hseveral.fits_iff n hn, Expression.runsAt_mk]
  term := by
    intro m f fs ih
    exact Term.revisable hordered ih
  factor := by
    intro m n p x hp hx
    exact Factor.revisable hordered hp hx
  reference := by
    intro m n depth ts hts h hwithin
    cases h with
    | @reference t _ hk _ =>
        rw [Within.untouched hwithin]
        refine ⟨.reference () t.text, .reference hk trivial, fun _ => rfl, fun k _ => ?_⟩
        exact iff_of_true (Nat.zero_le k) (List.forall_mem_nil _)
  literal := by
    intro m s q depth ts hts h hwithin
    cases h with
    | @literal t _ _ _ hk hquotes _ =>
        rw [Within.untouched hwithin]
        refine ⟨.literal () s q, .literal hk hquotes trivial, fun _ => rfl, fun k _ => ?_⟩
        exact iff_of_true (Nat.zero_le k) (List.forall_mem_nil _)
  bracketed := by
    intro m b e ih depth ts hts h hwithin
    rw [Primary.fixes_bracketed] at hwithin
    cases h with
    | @bracketed o us c _ _ _ hb he _ =>
        have hus : Legible us := @Legible.right [o] us hts.left
        have hown : ∀ f ∈ e.fixes, f.Rewrites us := fixes_rewrite.expressions e us hus he
        -- no fix is over the brackets, and inside there is one more of them around each run
        obtain ⟨hinner, hedit⟩ := @Within.inside _ e.fixes [o] us [c] hwithin hts.scanned hown
        obtain ⟨e', he', hrevised⟩ := ih (depth + 1) us hus he hinner
        refine ⟨.bracketed () b e', ?_, ?_, ?_⟩
        · show Primary.Derives .bare (editTokens fixes (([o] ++ us) ++ [c])) _
          rw [hedit]
          exact .bracketed hb he' trivial
        · intro i
          exact congrArg (fun l => b.denote l) (hrevised.same i)
        · intro n hn
          rw [Primary.nesting] at hn ⊢
          obtain ⟨k, rfl⟩ : ∃ k, n = k + 1 := ⟨n - 1, by omega⟩
          have hfits := hrevised.fits_iff k (Nat.le_of_succ_le_succ hn)
          rw [Nat.add_right_comm depth 1 k] at hfits
          exact Nat.succ_le_succ_iff.trans hfits

end EbnfKit
