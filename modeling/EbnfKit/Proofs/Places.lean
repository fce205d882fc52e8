import EbnfKit.Fix.Offer
import EbnfKit.Proofs.Blocks
import EbnfKit.Proofs.Editing
import EbnfKit.Proofs.Nodes

/-! # Places — where the fixes of a node stand

    A factor offers to drop the parentheses of its primary and of its exception, and a term
    to count its runs.  Each such fix stands over a stretch of the tokens that the node
    derives, and puts the text of a factor there:

      f is a fix of x,  ts derives x   imply   f.span = over us for some us within ts,
                                               f.replacement = g.render for some factor g -/

namespace EbnfKit

/-! ## The fixes of a node -/

/-- The fixes that a node offers. -/
def Node.fixes : Node Span → List Fix
  | .term t => (Run.ofTerm t).map Fix.countRun
  | .factor f => (RedundantGroup.ofFactor f).map Fix.dropParentheses
  | _ => []

/-- Dropping a group is a fix of a node. -/
theorem Fix.dropParentheses_mem {ns : List (Node Span)} {q : RedundantGroup}
    (hq : q ∈ (ns.filterMap (·.factor?)).flatMap RedundantGroup.ofFactor) :
    dropParentheses q ∈ ns.flatMap Node.fixes := by
  obtain ⟨f, hf, hqf⟩ := List.mem_flatMap.mp hq
  obtain ⟨n, hn, hnf⟩ := List.mem_filterMap.mp hf
  refine List.mem_flatMap.mpr ⟨n, hn, ?_⟩
  cases n with
  | factor f' =>
      obtain rfl := Option.some.inj hnf
      exact List.mem_map_of_mem hqf
  | expression e => cases hnf
  | term t => cases hnf
  | primary p => cases hnf

/-- Counting a run is a fix of a node. -/
theorem Fix.countRun_mem {ns : List (Node Span)} {r : Run}
    (hr : r ∈ (ns.filterMap (·.term?)).flatMap Run.ofTerm) :
    countRun r ∈ ns.flatMap Node.fixes := by
  obtain ⟨t, ht, hrt⟩ := List.mem_flatMap.mp hr
  obtain ⟨n, hn, hnt⟩ := List.mem_filterMap.mp ht
  refine List.mem_flatMap.mpr ⟨n, hn, ?_⟩
  cases n with
  | term t' =>
      obtain rfl := Option.some.inj hnt
      exact List.mem_map_of_mem hrt
  | expression e => cases hnt
  | factor f => cases hnt
  | primary p => cases hnt

/-- The fixes within the expression. -/
def Expression.fixes (e : Expression Span) : List Fix := e.nodes.flatMap Node.fixes

/-- The fixes within the term. -/
def Term.fixes (t : Term Span) : List Fix := t.nodes.flatMap Node.fixes

/-- The fixes within the factor. -/
def Factor.fixes (f : Factor Span) : List Fix := f.nodes.flatMap Node.fixes

/-- The fixes within the primary. -/
def Primary.fixes (p : Primary Span) : List Fix := p.nodes.flatMap Node.fixes

/-- The fixes within a primary that a factor holds, among them that for the primary itself.
    `plain` says that the primary is all there is to the factor. -/
def Primary.fixesIn (plain : Bool) (p : Primary Span) : List Fix :=
  (RedundantGroup.ofPrimary? plain p).toList.map Fix.dropParentheses ++ p.fixes

theorem Expression.fixes_mk (m : Span) (t : Term Span) (ts : List (Term Span)) :
    (Expression.mk m t ts).fixes = (t :: ts).flatMap Term.fixes := by
  rw [fixes, nodes_mk, List.flatMap_cons, List.flatMap_assoc]
  rfl

theorem Term.fixes_mk (m : Span) (f : Factor Span) (fs : List (Factor Span)) :
    (Term.mk m f fs).fixes
      = (Run.ofTerm (.mk m f fs)).map Fix.countRun ++ (f :: fs).flatMap Factor.fixes := by
  rw [fixes, nodes_mk, List.flatMap_cons, List.flatMap_assoc]
  rfl

theorem Factor.mem_fixes_mk {m : Span} {n : Option Nat} {p : Primary Span}
    {x : Option (Primary Span)} {f : Fix} :
    f ∈ (Factor.mk m n p x).fixes ↔ f ∈ p.fixesIn (Factor.mk m n p x).isPlain ++
      x.toList.flatMap (Primary.fixesIn false) := by
  have hnodes : f ∈ (Factor.mk m n p x).fixes ↔
      f ∈ (RedundantGroup.ofFactor (.mk m n p x)).map Fix.dropParentheses ∨ f ∈ p.fixes ∨
        f ∈ (Primary.nodesOpt x).flatMap Node.fixes := by
    rw [fixes, Factor.nodes, List.flatMap_cons, List.flatMap_append, List.mem_append,
      List.mem_append]
    rfl
  rw [hnodes, RedundantGroup.ofFactor, List.map_append, List.mem_append, List.mem_append,
    Primary.fixesIn, List.mem_append]
  cases x with
  | none => simp [Primary.nodesOpt, Factor.exception, Factor.primary]
  | some q =>
      rw [Option.toList_some, List.flatMap_singleton, Primary.fixesIn, List.mem_append]
      simp only [Factor.exception, Factor.primary, Option.bind_some, Primary.nodesOpt]
      exact or_or_or_comm

theorem Primary.fixes_bracketed (m : Span) (b : Bracket) (e : Expression Span) :
    (Primary.bracketed m b e).fixes = e.fixes := by
  rw [Primary.fixes, Primary.nodes, List.flatMap_cons]
  rfl

/-! ## Tokens that can be edited -/

/-- Tokens as a text without syntax errors has them. -/
structure Legible (ts : List Token) : Prop where
  scanned : Scanned ts
  whole : ∀ t ∈ ts, t.lexeme.Whole ∧ t.lexeme.Fits

theorem Legible.sublist {ts us : List Token} (h : Legible us) (hs : ts.Sublist us) : Legible ts :=
  ⟨h.scanned.sublist hs, fun t ht => h.whole t (hs.subset ht)⟩

theorem Legible.left {ts us : List Token} (h : Legible (ts ++ us)) : Legible ts :=
  h.sublist (List.sublist_append_left ts us)

theorem Legible.right {ts us : List Token} (h : Legible (ts ++ us)) : Legible us :=
  h.sublist (List.sublist_append_right ts us)

theorem Legible.factor {ts : List Token} (h : Legible ts) {f : Factor Span}
    (hf : Factor.Derives .placed ts f) : ∀ l ∈ f.lexemes, l.Whole ∧ l.Fits :=
  (derives_lasting lasting_fits).factors f ts hf h.whole

/-- Items that take a piece each are no more than the pieces. -/
theorem Separated.length_le {τ β : Type} {separates : τ → Prop} {item : List τ → β → Prop}
    {ts : List τ} {xs : List β} (h : Separated separates item ts xs)
    (hitem : ∀ ts x, item ts x → ts ≠ []) : xs.length ≤ ts.length := by
  induction h with
  | one hx => exact List.length_pos_of_ne_nil (hitem _ _ hx)
  | cons hx _ _ ih =>
      have := List.length_pos_of_ne_nil (hitem _ _ hx)
      rw [List.length_append, List.length_cons, List.length_cons]
      omega

/-! ## Where they stand -/

/-- The fix puts a factor in the place of a stretch of the tokens.  Where there are not too
    many tokens, its counts fit. -/
def Fix.Rewrites (f : Fix) (ts : List Token) : Prop :=
  ∃ us, ∃ g : Factor Span, us ≠ [] ∧ us.Sublist ts ∧ f.span = Span.over us ∧
    f.replacement = g.render ∧ ∀ l ∈ g.lexemes, l.Whole ∧ (ts.length < 2 ^ 32 → l.Fits)

theorem Fix.Rewrites.mono {f : Fix} {ts vs : List Token} (h : f.Rewrites ts)
    (hs : ts.Sublist vs) : f.Rewrites vs := by
  obtain ⟨us, g, hne, hus, hspan, hreplacement, hlexemes⟩ := h
  refine ⟨us, g, hne, hus.trans hs, hspan, hreplacement, ?_⟩
  intro l hl
  obtain ⟨hwhole, hfits⟩ := hlexemes l hl
  exact ⟨hwhole, fun hlen => hfits (Nat.lt_of_le_of_lt hs.length_le hlen)⟩

/-- A block of factors stands over a stretch of the tokens of its term. -/
theorem Run.stretch_of_block {ts : List Token} {f : Factor Span} {fs : List (Factor Span)}
    (h : Separated (fun s => Reading.placed.kind s = .comma) (Factor.Derives .placed) ts (f :: fs))
    {b : Factor Span × List (Factor Span)} (hb : b ∈ Run.blocks (f :: fs)) :
    ∃ us, us <:+: ts ∧ Separated (fun s => Reading.placed.kind s = .comma)
      (Factor.Derives .placed) us (Run.members b) := by
  have hnest := @Separated.nest _ _ _ (fun s => Reading.placed.kind s = .comma)
    (Factor.Derives .placed) Run.members (Run.blocks (f :: fs)) (List.ne_nil_of_mem hb)
    (fun _ _ => List.cons_ne_nil _ _) ts
  rw [Run.flatMap_members_blocks] at hnest
  exact (hnest h).stretch hb

/-- A fix that puts the text of a factor writes its lexemes, and no comments. -/
theorem Fix.plain_of_render {f : Fix} {g : Factor Span} (h : f.replacement = g.render)
    (hg : Wholes g.lexemes) : f.lexemes = g.lexemes ∧ Plain f.replacement f.lexemes := by
  have hlexemes : f.lexemes = g.lexemes := by
    rw [Fix.lexemes, h]
    exact lexemes_factor hg
  rw [hlexemes, h]
  exact ⟨rfl, render_plain.factors g hg⟩

/-- A run is counted over its block. -/
theorem Run.rewrites {us : List Token} (hus : Legible us) {b : Factor Span × List (Factor Span)}
    (hb : Separated (fun s => Reading.placed.kind s = .comma) (Factor.Derives .placed) us
      (Run.members b)) {r : Run} (hr : Run.ofBlock? b = some r) :
    us ≠ [] ∧ r.span = Span.over us ∧ ∀ l ∈ r.once.lexemes, l.Whole ∧ (us.length < 2 ^ 32 → l.Fits) := by
  obtain ⟨hlen, hfactor, hcount, hspan⟩ := Run.ofBlock?_eq_some_iff.mp hr
  have hfew : (Run.members b).length ≤ us.length :=
    hb.length_le fun ts f h => (Parser.derives_mark.factors f ts h).1
  have hjoin := Parser.separated_join (fun ts f h => Parser.derives_mark.factors f ts h) hus.scanned hb
  refine ⟨List.ne_nil_of_length_pos (by omega), hspan.trans hjoin, ?_⟩
  obtain ⟨vs, hvs, hderives⟩ := hb.sublist List.mem_cons_self
  have hlexemes := (hus.sublist hvs).factor hderives
  rw [← hfactor] at hlexemes
  refine Run.once_lexemes ?_ ?_ ?_
  · intro c hc
    exact ⟨Lexeme.sign_whole hc, fun _ => Lexeme.sign_fits hc⟩
  · have hfits : r.count ≤ us.length := by omega
    exact ⟨Lexeme.number_whole _, fun h => Lexeme.number_fits (Nat.lt_of_le_of_lt hfits h)⟩
  · intro l hl
    exact ⟨(hlexemes l hl).1, fun _ => (hlexemes l hl).2⟩

theorem Fix.countRun_rewrites {us : List Token} (hus : Legible us)
    {b : Factor Span × List (Factor Span)}
    (hb : Separated (fun s => Reading.placed.kind s = .comma) (Factor.Derives .placed) us
      (Run.members b)) {r : Run} (hr : Run.ofBlock? b = some r) : (Fix.countRun r).Rewrites us := by
  obtain ⟨hne, hspan, hlexemes⟩ := Run.rewrites hus hb hr
  exact ⟨us, r.once, hne, List.Sublist.refl us, hspan, (Run.render_once r).symm, hlexemes⟩

/-- What can be dropped is a group around one factor. -/
theorem RedundantGroup.of_ofPrimary? {plain : Bool} {p : Primary Span} {q : RedundantGroup}
    (h : RedundantGroup.ofPrimary? plain p = some q) :
    (plain = true ∨ q.inner.isPlain = true) ∧
      ∃ m m', p = .bracketed q.span .group (.mk m (.mk m' q.inner []) []) := by
  unfold ofPrimary? at h
  split at h
  · rename_i m m' m'' f
    by_cases hplain : (plain || f.isPlain) = true
    · rw [if_pos hplain] at h
      rw [← Option.some.inj h]
      exact ⟨by simpa using hplain, m', m'', rfl⟩
    · rw [if_neg hplain] at h
      cases h
  · cases h

/-- A bracketed expression derives all between the brackets. -/
theorem Primary.Derives.inside {τ α : Type} {d : Reading τ α} {ts : List τ} {m : α} {b : Bracket}
    {e : Expression α} (h : Primary.Derives d ts (.bracketed m b e)) :
    ∃ o us c, ts = [o] ++ us ++ [c] ∧ Expression.Derives d us e ∧ d.marks ts m := by
  cases h with
  | bracketed _ he hm => exact ⟨_, _, _, rfl, he, hm⟩

/-- A factor by itself derives all that the expression around it does. -/
theorem Expression.Derives.single {τ α : Type} {d : Reading τ α} {ts : List τ} {m m' : α}
    {f : Factor α} (h : Expression.Derives d ts (.mk m (.mk m' f []) [])) :
    Factor.Derives d ts f := by
  cases h with
  | mk hterms _ =>
      cases hterms with
      | cons _ _ hrest => exact absurd rfl hrest.ne_nil
      | one hterm =>
          cases hterm with
          | mk hfactors _ =>
              cases hfactors with
              | cons _ _ hrest => exact absurd rfl hrest.ne_nil
              | one hfactor => exact hfactor

/-- The fix stands over these tokens: it counts the block of factors that they derive, or
    drops the parentheses of the primary that they derive. -/
inductive Fix.StandsOver (us : List Token) : Fix → Prop
  | count {b r} : Run.ofBlock? b = some r → (∀ g ∈ Run.members b, g.render = b.1.render) →
      Separated (fun s => Reading.placed.kind s = .comma) (Factor.Derives .placed) us
        (Run.members b) → StandsOver us (countRun r)
  | drop {plain p q} : RedundantGroup.ofPrimary? plain p = some q →
      Primary.Derives .placed us p → StandsOver us (dropParentheses q)

theorem RedundantGroup.mem_ofFactor {m : Span} {n : Option Nat} {p : Primary Span}
    {x : Option (Primary Span)} {q : RedundantGroup} (h : q ∈ ofFactor (.mk m n p x)) :
    ∃ plain, ∃ p' ∈ p :: x.toList, ofPrimary? plain p' = some q := by
  rcases List.mem_append.mp h with hq | hq
  · exact ⟨_, p, List.mem_cons_self, Option.mem_toList.mp hq⟩
  · obtain ⟨p', hp', hq⟩ := Option.bind_eq_some_iff.mp (Option.mem_toList.mp hq)
    exact ⟨false, p', List.mem_cons_of_mem p (Option.mem_toList.mpr hp'), hq⟩

/-- **A fix of a node stands over a stretch** of what the node derives. -/
theorem Node.Derives.fix_stands {ts : List Token} {n : Node Span} (h : n.Derives .placed ts)
    {f : Fix} (hf : f ∈ n.fixes) : ∃ us, us <:+: ts ∧ f.StandsOver us := by
  cases n with
  | expression _ => cases hf
  | primary _ => cases hf
  | term t =>
      obtain ⟨r, hr, rfl⟩ := List.mem_map.mp hf
      obtain ⟨b, hb, hrun⟩ := Run.mem_ofTerm.mp hr
      cases h with
      | mk hsep _ =>
          obtain ⟨us, hus, hblock⟩ := Run.stretch_of_block hsep hb
          exact ⟨us, hus, .count hrun (Run.render_of_mem_blocks b hb) hblock⟩
  | factor g =>
      obtain ⟨q, hq, rfl⟩ := List.mem_map.mp hf
      obtain ⟨m, c, p, x⟩ := g
      obtain ⟨plain, p', hp', hq⟩ := RedundantGroup.mem_ofFactor hq
      obtain ⟨us, hus, hderives⟩ := Factor.Derives.stretch h hp'
      exact ⟨us, hus, .drop hq hderives⟩

theorem Fix.StandsOver.span {f : Fix} {us : List Token} (h : f.StandsOver us) (hus : Legible us) :
    us ≠ [] ∧ f.span = Span.over us := by
  cases h with
  | count hr _ hb =>
      obtain ⟨hne, hspan, -⟩ := Run.rewrites hus hb hr
      exact ⟨hne, hspan⟩
  | drop hq hp =>
      obtain ⟨-, m, m', rfl⟩ := RedundantGroup.of_ofPrimary? hq
      exact Parser.derives_mark.primaries _ us hp

/-- What a fix stands over it rewrites. -/
theorem Fix.StandsOver.rewrites {f : Fix} {us : List Token} (h : f.StandsOver us)
    (hus : Legible us) : f.Rewrites us := by
  cases h with
  | count hr _ hb => exact Fix.countRun_rewrites hus hb hr
  | @drop _ p q hq hp =>
      obtain ⟨-, m, m', rfl⟩ := RedundantGroup.of_ofPrimary? hq
      obtain ⟨o, vs, c, rfl, hinner, hspan⟩ := hp.inside
      refine ⟨[o] ++ vs ++ [c], q.inner, by simp, List.Sublist.refl _, hspan, rfl, ?_⟩
      intro l hl
      obtain ⟨hwhole, hfits⟩ := hus.left.right.factor hinner.single l hl
      exact ⟨hwhole, fun _ => hfits⟩

/-- The fixes of nodes that stand in the tokens stand there too. -/
theorem fixes_stand {ts : List Token} {ns : List (Node Span)}
    (h : ∀ n ∈ ns, ∃ us, us <:+: ts ∧ n.Derives .placed us) :
    ∀ f ∈ ns.flatMap Node.fixes, ∃ us, us <:+: ts ∧ f.StandsOver us := by
  intro f hf
  obtain ⟨n, hn, hf⟩ := List.mem_flatMap.mp hf
  obtain ⟨us, hus, hderives⟩ := h n hn
  obtain ⟨vs, hvs, hstands⟩ := hderives.fix_stands hf
  exact ⟨vs, hvs.trans hus, hstands⟩

theorem fixes_rewrite_of_nodes {ts : List Token} (hts : Legible ts) {ns : List (Node Span)}
    (h : ∀ n ∈ ns, ∃ us, us <:+: ts ∧ n.Derives .placed us) :
    ∀ f ∈ ns.flatMap Node.fixes, f.Rewrites ts := by
  intro f hf
  obtain ⟨us, hus, hstands⟩ := fixes_stand h f hf
  exact (hstands.rewrites (hts.sublist hus.sublist)).mono hus.sublist

theorem fixes_rewrite :
    Hereditary
      (fun e => ∀ ts, Legible ts → Expression.Derives .placed ts e → ∀ f ∈ e.fixes, f.Rewrites ts)
      (fun t => ∀ ts, Legible ts → Term.Derives .placed ts t → ∀ f ∈ t.fixes, f.Rewrites ts)
      (fun g => ∀ ts, Legible ts → Factor.Derives .placed ts g → ∀ f ∈ g.fixes, f.Rewrites ts)
      (fun p => ∀ ts, Legible ts → Primary.Derives .placed ts p → ∀ f ∈ p.fixes, f.Rewrites ts) :=
  .of_forall (fun e ts hts h => fixes_rewrite_of_nodes hts (nodes_stand.expressions e ts h))
    (fun t ts hts h => fixes_rewrite_of_nodes hts (nodes_stand.terms t ts h))
    (fun g ts hts h => fixes_rewrite_of_nodes hts (nodes_stand.factors g ts h))
    fun p ts hts h => fixes_rewrite_of_nodes hts (nodes_stand.primaries p ts h)

/-- The fixes in a primary that a factor holds stand in it, if those below it do. -/
theorem Primary.fixesIn_rewrite {plain : Bool} {p : Primary Span} {ts : List Token}
    (hts : Legible ts) (h : Primary.Derives .placed ts p) (hp : ∀ f ∈ p.fixes, f.Rewrites ts) :
    ∀ f ∈ p.fixesIn plain, f.Rewrites ts := by
  intro f hf
  rcases List.mem_append.mp hf with hf | hf
  · obtain ⟨q, hq, rfl⟩ := List.mem_map.mp hf
    exact (Fix.StandsOver.drop (Option.mem_toList.mp hq) h).rewrites hts
  · exact hp f hf

end EbnfKit
