import EbnfKit.Proofs.Places

/-! # Scopes — the fixes that concern a node

    Of the fixes of a text only some are over the tokens of a node: its own and those below
    it.  What is within a node splits as its tokens do:

      fixes within a, b over ts ++ us   imply   fixes within a over ts, within b over us

    Fixes in order are not over the same byte, so where one takes all tokens of a node, no
    fix below it is there.  The runs of a tree are listed with the brackets around them, for
    counting one may put another bracket around its factor. -/

namespace EbnfKit

variable {fixes : List Fix}

/-! ## Runs and how deep they stand -/

mutual

/-- The runs in the expression, each with the number of brackets around it, where there are
    `depth` around the expression. -/
def Expression.runsAt (depth : Nat) : Expression Span → List (Nat × Run)
  | .mk _ t ts => t.runsAt depth ++ Term.runsAtAll depth ts

/-- The runs in several terms. -/
def Term.runsAtAll (depth : Nat) : List (Term Span) → List (Nat × Run)
  | [] => []
  | t :: ts => t.runsAt depth ++ Term.runsAtAll depth ts

/-- The runs in the term, its own first. -/
def Term.runsAt (depth : Nat) : Term Span → List (Nat × Run)
  | .mk m f fs =>
      (Run.ofTerm (.mk m f fs)).map (fun r => (depth, r)) ++
        (f.runsAt depth ++ Factor.runsAtAll depth fs)

/-- The runs in several factors. -/
def Factor.runsAtAll (depth : Nat) : List (Factor Span) → List (Nat × Run)
  | [] => []
  | f :: fs => f.runsAt depth ++ Factor.runsAtAll depth fs

/-- The runs in the factor. -/
def Factor.runsAt (depth : Nat) : Factor Span → List (Nat × Run)
  | .mk _ _ p x => p.runsAt depth ++ Primary.runsAtOpt depth x

/-- The runs in an exception that may be missing. -/
def Primary.runsAtOpt (depth : Nat) : Option (Primary Span) → List (Nat × Run)
  | none => []
  | some p => p.runsAt depth

/-- The runs in the primary. -/
def Primary.runsAt (depth : Nat) : Primary Span → List (Nat × Run)
  | .reference _ _ => []
  | .literal _ _ _ => []
  | .bracketed _ _ e => e.runsAt (depth + 1)

end

theorem Expression.runsAt_mk (depth : Nat) (m : Span) (t : Term Span) (ts : List (Term Span)) :
    (Expression.mk m t ts).runsAt depth = (t :: ts).flatMap (Term.runsAt depth) := by
  have hall : ∀ ts, Term.runsAtAll depth ts = ts.flatMap (Term.runsAt depth) := by
    intro ts
    induction ts with
    | nil => rfl
    | cons t ts ih => rw [Term.runsAtAll, ih, List.flatMap_cons]
  rw [runsAt, hall, List.flatMap_cons]

theorem Term.runsAt_mk (depth : Nat) (m : Span) (f : Factor Span) (fs : List (Factor Span)) :
    (Term.mk m f fs).runsAt depth = (Run.ofTerm (.mk m f fs)).map (fun r => (depth, r)) ++
      (f :: fs).flatMap (Factor.runsAt depth) := by
  have hall : ∀ fs, Factor.runsAtAll depth fs = fs.flatMap (Factor.runsAt depth) := by
    intro fs
    induction fs with
    | nil => rfl
    | cons f fs ih => rw [Factor.runsAtAll, ih, List.flatMap_cons]
  rw [runsAt, hall, List.flatMap_cons]

theorem Factor.runsAt_mk (depth : Nat) (m : Span) (n : Option Nat) (p : Primary Span)
    (x : Option (Primary Span)) :
    (Factor.mk m n p x).runsAt depth
      = p.runsAt depth ++ x.toList.flatMap (Primary.runsAt depth) := by
  cases x with
  | none => rfl
  | some q => rw [runsAt, Primary.runsAtOpt, Option.toList_some, List.flatMap_singleton]

/-- What counts a run is a fix of the node. -/
theorem countRun_mem_fixes :
    Hereditary (fun e => ∀ depth, ∀ kr ∈ e.runsAt depth, Fix.countRun kr.2 ∈ e.fixes)
      (fun t => ∀ depth, ∀ kr ∈ t.runsAt depth, Fix.countRun kr.2 ∈ t.fixes)
      (fun f => ∀ depth, ∀ kr ∈ f.runsAt depth, Fix.countRun kr.2 ∈ f.fixes)
      (fun p => ∀ depth, ∀ kr ∈ p.runsAt depth, Fix.countRun kr.2 ∈ p.fixes) where
  expression := by
    intro m t ts ih depth kr hkr
    rw [Expression.runsAt_mk] at hkr
    obtain ⟨u, hu, hmem⟩ := List.mem_flatMap.mp hkr
    rw [Expression.fixes_mk]
    exact List.mem_flatMap.mpr ⟨u, hu, ih u hu depth kr hmem⟩
  term := by
    intro m f fs ih depth kr hkr
    rw [Term.runsAt_mk] at hkr
    rw [Term.fixes_mk]
    rcases List.mem_append.mp hkr with hkr | hkr
    · obtain ⟨r, hr, rfl⟩ := List.mem_map.mp hkr
      exact List.mem_append_left _ (List.mem_map_of_mem hr)
    · obtain ⟨u, hu, hmem⟩ := List.mem_flatMap.mp hkr
      exact List.mem_append_right _ (List.mem_flatMap.mpr ⟨u, hu, ih u hu depth kr hmem⟩)
  factor := by
    intro m n p x hp hx depth kr hkr
    rw [Factor.runsAt_mk] at hkr
    refine Factor.mem_fixes_mk.mpr ?_
    rcases List.mem_append.mp hkr with hkr | hkr
    · exact List.mem_append_left _ (List.mem_append_right _ (hp depth kr hkr))
    · obtain ⟨q, hq, hmem⟩ := List.mem_flatMap.mp hkr
      have hqx : q ∈ x := Option.mem_toList.mp hq
      exact List.mem_append_right _ (List.mem_flatMap.mpr
        ⟨q, hq, List.mem_append_right _ (hx q hqx depth kr hmem)⟩)
  reference := by
    intro m n depth kr hkr
    cases hkr
  literal := by
    intro m s q depth kr hkr
    cases hkr
  bracketed := by
    intro m b e ih depth kr hkr
    rw [Primary.fixes_bracketed]
    exact ih (depth + 1) kr hkr

/-- The fixes count the run in a group, and the group makes brackets nest deeper than
    `n`. -/
def TooDeep (fixes : List Fix) (n : Nat) (kr : Nat × Run) : Prop :=
  Fix.countRun kr.2 ∈ fixes ∧ kr.2.factor.isPlain = false ∧
    n < kr.1 + 1 + kr.2.factor.nesting

/-! ## Fixes within a stretch of tokens -/

/-- Whatever else the fixes are, they are not over these tokens. -/
def Within (fixes own : List Fix) (ts : List Token) : Prop :=
  ∀ f ∈ fixes, f ∈ own ∨ ∀ t ∈ ts, f.span.holds t.span.start = false

theorem Within.mono {own own' : List Fix} {ts : List Token} (h : Within fixes own ts)
    (hown : ∀ f ∈ own, f ∈ fixes → f ∈ own') : Within fixes own' ts := by
  intro f hf
  rcases h f hf with hmem | hnone
  · exact Or.inl (hown f hmem hf)
  · exact Or.inr hnone

theorem Within.untouched {ts : List Token} (h : Within fixes [] ts) :
    editTokens fixes ts = ts.map Token.lexeme := by
  refine editTokens_untouched fun f hf => ?_
  rcases h f hf with hmem | hnone
  · cases hmem
  · exact hnone

/-- A fix over some tokens is over none of those behind them. -/
theorem Fix.Rewrites.not_holds_right {f : Fix} {ts us : List Token} (h : f.Rewrites ts)
    (hscanned : Scanned (ts ++ us)) : ∀ u ∈ us, f.span.holds u.span.start = false := by
  intro u hu
  obtain ⟨vs, -, hne, hvs, hspan, -, -⟩ := h
  have hle := hscanned.stop_le_start (hvs.subset (List.getLast_mem hne)) hu
  rw [← Span.over_stop hne, ← hspan] at hle
  exact Span.not_holds_iff.mpr (Or.inr hle)

/-- A fix over some tokens is over none of those before them. -/
theorem Fix.Rewrites.not_holds_left {f : Fix} {ts us : List Token} (h : f.Rewrites us)
    (hscanned : Scanned (ts ++ us)) : ∀ t ∈ ts, f.span.holds t.span.start = false := by
  intro t ht
  obtain ⟨vs, -, hne, hvs, hspan, -, -⟩ := h
  have hle := hscanned.stop_le_start ht (hvs.subset (List.head_mem hne))
  have hforward := hscanned.forward t (List.mem_append_left us ht)
  rw [← Span.over_start hne, ← hspan] at hle
  exact Span.not_holds_iff.mpr (Or.inl (by omega))

/-- Fixes within two stretches of tokens are within each. -/
theorem Within.append {a b : List Fix} {ts us : List Token} (h : Within fixes (a ++ b) (ts ++ us))
    (hscanned : Scanned (ts ++ us)) (ha : ∀ f ∈ a, f.Rewrites ts) (hb : ∀ f ∈ b, f.Rewrites us) :
    Within fixes a ts ∧ Within fixes b us := by
  constructor
  · intro f hf
    rcases h f hf with hmem | hnone
    · rcases List.mem_append.mp hmem with hmem | hmem
      · exact Or.inl hmem
      · exact Or.inr ((hb f hmem).not_holds_left hscanned)
    · exact Or.inr fun t ht => hnone t (List.mem_append_left us ht)
  · intro f hf
    rcases h f hf with hmem | hnone
    · rcases List.mem_append.mp hmem with hmem | hmem
      · exact Or.inr ((ha f hmem).not_holds_right hscanned)
      · exact Or.inl hmem
    · exact Or.inr fun u hu => hnone u (List.mem_append_right ts hu)

/-- Tokens in front of those that the fixes are over stay. -/
theorem Within.behind {own : List Fix} {as us : List Token} (h : Within fixes own (as ++ us))
    (hscanned : Scanned (as ++ us)) (hown : ∀ f ∈ own, f.Rewrites us) :
    Within fixes own us ∧
      editTokens fixes (as ++ us) = as.map Token.lexeme ++ editTokens fixes us := by
  obtain ⟨hfront, hinner⟩ := @Within.append _ [] own as us h hscanned (List.forall_mem_nil _) hown
  exact ⟨hinner, by rw [editTokens_append, hfront.untouched]⟩

/-- And so do those on either side. -/
theorem Within.inside {own : List Fix} {as us bs : List Token}
    (h : Within fixes own (as ++ us ++ bs)) (hscanned : Scanned (as ++ us ++ bs))
    (hown : ∀ f ∈ own, f.Rewrites us) :
    Within fixes own us ∧ editTokens fixes (as ++ us ++ bs)
      = as.map Token.lexeme ++ editTokens fixes us ++ bs.map Token.lexeme := by
  have hsplit : Within fixes (own ++ []) (as ++ us ++ bs) := by
    rw [List.append_nil]
    exact h
  obtain ⟨hfront, hlast⟩ := hsplit.append hscanned
    (fun f hf => (hown f hf).mono (List.sublist_append_right as us)) (List.forall_mem_nil _)
  obtain ⟨hinner, hedit⟩ := hfront.behind hscanned.left hown
  exact ⟨hinner, by rw [editTokens_append, hedit, hlast.untouched]⟩

/-- Where one of the fixes takes all of the tokens, none is over less of them. -/
theorem not_mem_of_inside (hordered : Ordered fixes) {f g : Fix} (hf : f ∈ fixes)
    {as us bs : List Token} (hscanned : Scanned (as ++ us ++ bs))
    (hspan : f.span = Span.over (as ++ us ++ bs)) (hproper : as ≠ [] ∨ bs ≠ [])
    (hg : g.Rewrites us) : g ∉ fixes := by
  intro hmem
  obtain ⟨vs, -, hne, hvs, hgspan, -, -⟩ := hg
  have hsub : us.Sublist (as ++ us ++ bs) := (List.infix_append as us bs).sublist
  have hbounds := Span.over_sublist hscanned (hvs.trans hsub) hne
  have hforward := Span.over_forward (hscanned.sublist (hvs.trans hsub)) hne
  have hfg : f = g := by
    refine @Ordered.eq_of_holds _ hordered f g hf hmem g.span.start ?_ ?_
    · rw [Span.holds_iff, hspan, hgspan]
      omega
    · rw [Span.holds_iff, hgspan]
      omega
  have hsame : Span.over (as ++ us ++ bs) = Span.over vs := by rw [← hspan, hfg, hgspan]
  -- the tokens on either side are not under `g`
  rcases hproper with has | hbs
  · have hscanned' : Scanned (as ++ vs) := hscanned.left.sublist (hvs.append_left as)
    have hle := Span.over_stop_le_start hscanned' has hne
    have hafter := Span.over_forward hscanned'.left has
    rw [List.append_assoc, Span.over_append has] at hsame
    · have := congrArg Span.start hsame
      simp only at this
      omega
    · intro hnil
      exact hne (List.sublist_nil.mp ((List.append_eq_nil_iff.mp hnil).1 ▸ hvs))
  · have hscanned' : Scanned (vs ++ bs) :=
      hscanned.sublist ((hvs.trans (List.sublist_append_right as us)).append_right bs)
    have hle := Span.over_stop_le_start hscanned' hne hbs
    have hafter := Span.over_forward hscanned'.right hbs
    rw [Span.over_append _ hbs] at hsame
    · have := congrArg Span.stop hsame
      simp only at this
      omega
    · intro hnil
      exact hne (List.sublist_nil.mp ((List.append_eq_nil_iff.mp hnil).2 ▸ hvs))

end EbnfKit
