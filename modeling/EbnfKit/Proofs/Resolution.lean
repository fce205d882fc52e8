import EbnfKit.Proofs.Lines
import EbnfKit.Proofs.Lookup
import EbnfKit.Proofs.Reports
import EbnfKit.Proofs.Selection

/-! # Resolution — the index has every use and every definition, once

    What an index should say is stated here without the walk through the trees.  A use is a
    reference somewhere below the body of a rule, exceptions and brackets included; the first
    rule of a name defines it, and the others are duplicates:

      (n, r) in definitions             iff   r is the first rule of the name n
      u listed under n in references    iff   u is a use of n
      d in duplicates                   iff   the name of d has an earlier rule, its first

    Uses come in source order under each name.  Taken over all names they are out of order, and
    reports on them are in order once these are sorted, since no two uses are at one place.

    The report on a duplicate cites where the first rule of the name stands: its line by the line
    feeds in front of it, its column by the characters behind the last of these. -/

namespace EbnfKit

/-! ## Uses -/

/-- The node is somewhere below the other one, or is that one. -/
def Node.Has {α : Type} (x n : Node α) : Prop :=
  Relation.ReflTransGen (fun a b : Node α => b ∈ a.children) x n

theorem Node.mem_nodes_iff_has {α : Type} {x n : Node α} : n ∈ x.nodes ↔ x.Has n := by
  constructor
  · induction x using Node.induct with
    | step x ih =>
        intro h
        rcases Node.mem_nodes_iff.mp h with rfl | ⟨c, hc, hn⟩
        · exact .refl
        · exact .head hc (ih c hc hn)
  · intro h
    induction h using Relation.ReflTransGen.head_induction_on with
    | refl => exact Node.mem_nodes_iff.mpr (Or.inl rfl)
    | head hc _ ih => exact Node.mem_nodes_iff.mpr (Or.inr ⟨_, hc, ih⟩)

namespace Grammar

variable {g : Grammar} {s : Text}

/-- The node stands in the body of a rule, at any depth. -/
def Holds (g : Grammar) (n : Node Span) : Prop :=
  ∃ r ∈ g.rules, (Node.expression r.body).Has n

theorem mem_nodes_iff_holds {n : Node Span} : n ∈ g.nodes ↔ g.Holds n := by
  rw [nodes, List.mem_flatMap, Holds]
  exact exists_congr fun r => and_congr_right fun _ =>
    @Node.mem_nodes_iff_has _ (.expression r.body) n

/-- The rule at the position of the site has a reference to the name, at the span. -/
def Uses (g : Grammar) (site : Site) : Prop :=
  ∃ r, g.rules[site.rule]? = some r ∧
    (Node.expression r.body).Has (.primary (.reference site.span site.name))

theorem mem_sites_iff_uses {site : Site} : site ∈ g.sites ↔ g.Uses site := by
  have huse : ∀ {e : Expression Span} {use : Text × Span},
      use ∈ e.uses ↔ (Node.expression e).Has (.primary (.reference use.2 use.1)) := by
    intro e use
    rw [← Node.mem_nodes_iff_has, Expression.uses, List.mem_filterMap]
    constructor
    · rintro ⟨n, hn, huse⟩
      rwa [Node.use?_eq_some_iff.mp huse] at hn
    · exact fun hn => ⟨_, hn, rfl⟩
  rw [sites, List.mem_flatMap, Uses]
  constructor
  · rintro ⟨⟨r, i⟩, hr, hsite⟩
    obtain ⟨use, hmem, rfl⟩ := List.mem_map.mp hsite
    exact ⟨r, List.mem_zipIdx_iff_getElem?.mp hr, huse.mp hmem⟩
  · rintro ⟨r, hr, hhas⟩
    refine ⟨(r, site.rule), List.mem_zipIdx_iff_getElem?.mpr hr, List.mem_map.mpr ?_⟩
    exact ⟨(site.name, site.span), huse.mpr hhas, rfl⟩

/-- A use stands on a token. -/
theorem exists_token_of_use {name : Text} {span : Span}
    (hn : .primary (.reference span name) ∈ (parse s).nodes) : ∃ t ∈ significant s, span = t.span := by
  obtain ⟨us, hus, hnode⟩ := node_derives hn
  cases hnode with
  | @reference t _ _ hspan => exact ⟨t, hus.subset (List.mem_singleton_self t), hspan⟩

/-- The uses of a text stand one behind the other. -/
theorem sites_apart (s : Text) :
    (parse s).sites.Pairwise fun a b => a.span.stop ≤ b.span.start := by
  have huses : ((parse s).nodes.filterMap Node.use?).Pairwise fun a b => a.2.stop ≤ b.2.start := by
    refine List.pairwise_filterMap.mpr ((nodes_before s).imp_of_mem ?_)
    intro n n' hn hn' hbefore use huse use' huse'
    rw [Node.use?_eq_some_iff.mp huse] at hn hbefore
    rw [Node.use?_eq_some_iff.mp huse'] at hn' hbefore
    have hstart : use.2.start < use'.2.start := hbefore.2 (Nat.le_refl 3)
    obtain ⟨t, ht, hspan⟩ := exists_token_of_use hn
    obtain ⟨t', ht', hspan'⟩ := exists_token_of_use hn'
    rw [hspan, hspan'] at hstart ⊢
    -- tokens that start at different places are apart
    have hscanned := significant_scanned s
    have hforward := hscanned.forward t' ht'
    rcases pairwise_cases hscanned.ordered ht ht' with rfl | hapart | hapart
    · exact absurd hstart (Nat.lt_irrefl _)
    · exact hapart
    · omega
  refine List.pairwise_map.mp (?_ : ((parse s).sites.map Site.span).Pairwise fun a b => a.stop ≤ b.start)
  rw [spans_sites, List.pairwise_map]
  exact huses

/-- The uses of a text, each once. -/
theorem sites_nodup (s : Text) : (parse s).sites.Nodup :=
  (sites_pairwise s).imp fun hne heq => hne (congrArg Site.span heq)

theorem forward_of_mem_sites {site : Site} (h : site ∈ (parse s).sites) :
    site.span.start < site.span.stop := by
  obtain ⟨r, hr, hhas⟩ := mem_sites_iff_uses.mp h
  have hn : .primary (.reference site.span site.name) ∈ r.body.nodes :=
    Node.mem_nodes_iff_has.mpr hhas
  obtain ⟨t, ht, hspan⟩ :=
    exists_token_of_use (List.mem_flatMap.mpr ⟨r, List.mem_of_getElem? hr, hn⟩)
  rw [hspan]
  exact (significant_scanned s).forward t ht

theorem mem_sitesOf_iff {n : Text} {site : Site} :
    site ∈ g.sitesOf n ↔ g.Uses site ∧ site.name = n := by
  rw [sitesOf, List.mem_filter, mem_sites_iff_uses, beq_iff_eq]

/-- Lists of the same uses, each in source order, are equal. -/
theorem eq_of_apart {as bs : List Site} (hforward : ∀ a ∈ as, a.span.start < a.span.stop)
    (has : as.Pairwise fun a b => a.span.stop ≤ b.span.start)
    (hbs : bs.Pairwise fun a b => a.span.stop ≤ b.span.start) (h : ∀ a, a ∈ as ↔ a ∈ bs) :
    as = bs := by
  have hforward' : ∀ b ∈ bs, b.span.start < b.span.stop := fun b hb => hforward b ((h b).mpr hb)
  have hnodup : ∀ {cs : List Site}, (∀ c ∈ cs, c.span.start < c.span.stop) →
      (cs.Pairwise fun a b => a.span.stop ≤ b.span.start) → cs.Nodup := by
    intro cs hcs hapart
    refine hapart.imp_of_mem fun {a b} ha _ hle heq => ?_
    have := hcs a ha
    rw [← heq] at hle
    omega
  have hperm : as.Perm bs :=
    (List.perm_ext_iff_of_nodup (hnodup hforward has) (hnodup hforward' hbs)).mpr h
  refine List.Perm.eq_of_pairwise (fun a b ha hb hab hba => ?_) has hbs hperm
  have ha := hforward a ha
  have hb := hforward' b hb
  omega

/-! ## Definitions -/

theorem mem_sortedNames {names : List Text} {n : Text} : n ∈ sortedNames names ↔ n ∈ names := by
  rw [sortedNames, (stableSort_perm _).mem_iff, mem_distinctNames]

theorem sortedNames_nodup (names : List Text) : (sortedNames names).Nodup :=
  (stableSort_perm _).nodup_iff.mpr (distinctNames_nodup names)

theorem mem_index_definitions {n : Text} {r : Rule Span} :
    (n, r) ∈ g.index.definitions ↔ g.Defines n r := by
  show (n, r) ∈ (sortedNames g.names).filterMap _ ↔ _
  simp only [List.mem_filterMap, mem_sortedNames, Option.map_eq_some_iff, Prod.mk.injEq]
  rw [← definition?_eq_some_iff]
  constructor
  · rintro ⟨m, -, q, hq, rfl, rfl⟩
    exact hq
  · intro hr
    have hn : n ∈ g.names := isDefined_iff.mp (Option.isSome_iff_exists.mpr ⟨r, hr⟩)
    exact ⟨n, hn, r, hr, rfl, rfl⟩

theorem keys_definitions (g : Grammar) :
    g.index.definitions.map Prod.fst = sortedNames g.names := by
  have hdefined : ∀ n ∈ sortedNames g.names,
      ((g.definition? n).map fun r => (n, r)).map Prod.fst = some n := by
    intro n hn
    obtain ⟨r, hr⟩ := Option.isSome_iff_exists.mp (isDefined_iff.mpr (mem_sortedNames.mp hn))
    rw [hr]
    rfl
  show ((sortedNames g.names).filterMap _).map Prod.fst = _
  rw [List.map_filterMap, List.filterMap_congr hdefined, List.filterMap_some]

/-- A duplicate stands behind the first rule of its name. -/
theorem duplicatesAfter_split {d : Duplicate} {rs : List (Rule Span)} :
    ∀ {front ds : List (Rule Span)},
      (∀ n, (ds.find? fun q => q.name == n) = front.find? fun q => q.name == n) →
      d ∈ duplicatesAfter ds rs → ∃ before after, rs = before ++ d.duplicate :: after ∧
        (front ++ before).find? (fun q => q.name == d.duplicate.name) = some d.first := by
  induction rs with
  | nil => exact fun _ hd => nomatch hd
  | cons r rs ih =>
      intro front ds hfirsts hd
      rw [duplicatesAfter] at hd
      have hlater : ∀ {es : List (Rule Span)},
          (∀ n, (es.find? fun q => q.name == n) = (front ++ [r]).find? fun q => q.name == n) →
          d ∈ duplicatesAfter es rs → ∃ before after, r :: rs = before ++ d.duplicate :: after ∧
            (front ++ before).find? (fun q => q.name == d.duplicate.name) = some d.first := by
        intro es hes hd
        obtain ⟨before, after, hrs, hfind⟩ := ih hes hd
        rw [List.append_assoc] at hfind
        exact ⟨r :: before, after, congrArg (r :: ·) hrs, hfind⟩
      cases hfind : ds.find? fun q => q.name == r.name with
      | some first =>
          rw [hfind] at hd
          rcases List.mem_cons.mp hd with rfl | hd
          · exact ⟨[], rs, rfl, by rw [List.append_nil, ← hfirsts]; exact hfind⟩
          · -- the name has been met, so the rule changes no first one
            refine hlater (fun n => ?_) hd
            rw [List.find?_append, hfirsts]
            by_cases hn : r.name = n
            · rw [← hn, ← hfirsts, hfind]
              rfl
            · rw [List.find?_cons_of_neg (by simpa using hn), List.find?_nil, Option.or_none]
      | none =>
          rw [hfind] at hd
          refine hlater (fun n => ?_) hd
          rw [List.find?_append, List.find?_append, hfirsts]

theorem exists_first_of_duplicate {d : Duplicate} (hd : d ∈ g.duplicates) :
    ∃ before after, g.rules = before ++ d.duplicate :: after ∧ d.first ∈ before ∧
      g.Defines d.duplicate.name d.first := by
  obtain ⟨before, after, hrules, hfind⟩ := @duplicatesAfter_split d g.rules [] [] (fun _ => rfl) hd
  rw [List.nil_append] at hfind
  refine ⟨before, after, hrules, List.mem_of_find?_eq_some hfind, ?_⟩
  rw [← definition?_eq_some_iff, definition?, hrules, List.find?_append, hfind]
  rfl

/-- The duplicates of a text are the rules that define nothing. -/
theorem mem_duplicates_iff {r : Rule Span} (hr : r ∈ (parse s).rules) :
    r ∈ (parse s).duplicates.map Duplicate.duplicate ↔ ¬(parse s).Defines r.name r := by
  constructor
  · intro hmem hdefines
    obtain ⟨d, hd, rfl⟩ := List.mem_map.mp hmem
    obtain ⟨before, after, hrules, hfirst, hdefines'⟩ := exists_first_of_duplicate hd
    -- the rule would stand behind itself
    rw [hdefines.unique hdefines'] at hrules
    have hne := nameMark_ne s
    rw [hrules] at hne
    exact (List.pairwise_append.mp hne).2.2 _ hfirst _ List.mem_cons_self rfl
  · intro hnot
    rcases find?_or_mem_duplicatesAfter hr [] with ⟨-, hfirst⟩ | hmem
    · exact absurd (definition?_eq_some_iff.mp hfirst) hnot
    · exact hmem

end Grammar

/-! ## The index -/

namespace Grammar

/-- What an index is to say of the grammar: the first rule of each name, under each name that is
    used its uses in source order, and the other rules in source order, each with the first. -/
structure Indexed (g : Grammar) (index : Index) : Prop where
  definitions : ∀ n r, (n, r) ∈ index.definitions ↔ g.Defines n r
  definedOnce : (index.definitions.map Prod.fst).Nodup
  references : ∀ n sites, (n, sites) ∈ index.references ↔
    sites ≠ [] ∧ (∀ site, site ∈ sites ↔ g.Uses site ∧ site.name = n) ∧
      sites.Pairwise fun a b => a.span.stop ≤ b.span.start
  usedOnce : (index.references.map Prod.fst).Nodup
  laterRules : (index.duplicates.map Duplicate.duplicate).Sublist g.rules
  duplicates : ∀ r ∈ g.rules,
    r ∈ index.duplicates.map Duplicate.duplicate ↔ ¬g.Defines r.name r
  firsts : ∀ d ∈ index.duplicates, ∃ before after, g.rules = before ++ d.duplicate :: after ∧
    d.first ∈ before ∧ g.Defines d.duplicate.name d.first

variable {s : Text}

theorem mem_index_references {n : Text} {sites : List Site} :
    (n, sites) ∈ (parse s).index.references ↔
      sites ≠ [] ∧ (∀ site, site ∈ sites ↔ (parse s).Uses site ∧ site.name = n) ∧
        sites.Pairwise fun a b => a.span.stop ≤ b.span.start := by
  have hapart : ((parse s).sitesOf n).Pairwise fun a b => a.span.stop ≤ b.span.start :=
    (sites_apart s).sublist List.filter_sublist
  have hforward : ∀ site ∈ (parse s).sitesOf n, site.span.start < site.span.stop :=
    fun site hsite => forward_of_mem_sites (List.mem_filter.mp hsite).1
  show (n, sites) ∈ (sortedNames _).map _ ↔ _
  simp only [List.mem_map, mem_sortedNames, Prod.mk.injEq]
  constructor
  · rintro ⟨m, ⟨site, hsite, hname⟩, rfl, rfl⟩
    refine ⟨List.ne_nil_of_mem (mem_sitesOf_iff.mpr ⟨mem_sites_iff_uses.mp hsite, hname⟩), ?_, hapart⟩
    exact fun site => mem_sitesOf_iff
  · rintro ⟨hne, hsites, hordered⟩
    obtain ⟨site, hsite⟩ := List.exists_mem_of_ne_nil sites hne
    obtain ⟨huses, hname⟩ := (hsites site).mp hsite
    refine ⟨n, ⟨site, mem_sites_iff_uses.mpr huses, hname⟩, rfl, ?_⟩
    exact eq_of_apart hforward hapart hordered fun a => mem_sitesOf_iff.trans (hsites a).symm

theorem indexed (s : Text) : (parse s).Indexed (parse s).index where
  definitions := fun _ _ => mem_index_definitions
  definedOnce := by
    rw [keys_definitions]
    exact sortedNames_nodup _
  references := fun _ _ => mem_index_references
  usedOnce := by
    show (((sortedNames _).map _).map Prod.fst).Nodup
    rw [List.map_map]
    exact (List.map_id _).symm ▸ sortedNames_nodup _
  laterRules := duplicatesAfter_sublist (parse s).rules []
  duplicates := fun _ hr => mem_duplicates_iff hr
  firsts := fun _ hd => exists_first_of_duplicate hd

/-- Taken over all names, the uses are those in source order, in another order. -/
theorem references_perm (s : Text) :
    ((parse s).index.references.flatMap Prod.snd).Perm (parse s).sites := by
  have hnodup : ((parse s).index.references.flatMap Prod.snd).Nodup := by
    show (((sortedNames _).map _).flatMap _).Nodup
    rw [List.flatMap_map, List.nodup_flatMap]
    refine ⟨fun n _ => (sites_nodup s).sublist List.filter_sublist, ?_⟩
    refine (sortedNames_nodup _).imp fun {n n'} hne site hsite hsite' => hne ?_
    rw [← (mem_sitesOf_iff.mp hsite).2, (mem_sitesOf_iff.mp hsite').2]
  refine (List.perm_ext_iff_of_nodup hnodup (sites_nodup s)).mpr fun site => ?_
  rw [List.mem_flatMap, mem_sites_iff_uses]
  constructor
  · rintro ⟨⟨n, sites⟩, hentry, hsite⟩
    exact (((indexed s).references n sites |>.mp hentry).2.1 site |>.mp hsite).1
  · intro huses
    have hsite : site ∈ (parse s).sitesOf site.name := mem_sitesOf_iff.mpr ⟨huses, rfl⟩
    have hname : site.name ∈ (parse s).sites.map Site.name :=
      List.mem_map_of_mem (mem_sites_iff_uses.mpr huses)
    exact ⟨_, List.mem_map_of_mem (mem_sortedNames.mpr hname), hsite⟩

end Grammar

/-! ## Reports -/

/-- The errors about the uses of undefined names, name by name as the index has them. -/
def Index.undefinedUses (index : Index) : List Diagnostic :=
  index.references.flatMap fun entry =>
    if (index.definitions.map Prod.fst).contains entry.1 then []
    else entry.2.map Check.undefinedRule

namespace Grammar

variable {s : Text}

theorem undefinedUses_perm (s : Text) :
    (parse s).index.undefinedUses.Perm (Check.undefinedRules (parse s)) := by
  have hentry : ∀ entry ∈ (parse s).index.references,
      (if ((parse s).index.definitions.map Prod.fst).contains entry.1 then []
        else entry.2.map Check.undefinedRule)
      = (entry.2.filter fun site => !(parse s).isDefined site.name).map Check.undefinedRule := by
    rintro ⟨n, sites⟩ hmem
    obtain ⟨-, hsites, -⟩ := mem_index_references.mp hmem
    have hsame : ∀ site ∈ sites, (!(parse s).isDefined site.name) = !(parse s).isDefined n := by
      intro site hsite
      rw [((hsites site).mp hsite).2]
    have hiff : ((parse s).index.definitions.map Prod.fst).contains n = true
        ↔ (parse s).isDefined n = true := by
      rw [List.contains_iff_mem, keys_definitions, mem_sortedNames, isDefined_iff]
    rw [List.filter_congr hsame]
    cases hn : (parse s).isDefined n with
    | true =>
        rw [if_pos (hiff.mpr hn), Bool.not_true, List.filter_false]
        rfl
    | false =>
        rw [if_neg (mt hiff.mp (by rw [hn]; exact Bool.false_ne_true)), Bool.not_false,
          List.filter_true]
  rw [Index.undefinedUses, List.flatMap_congr hentry, ← List.map_flatMap, ← List.filter_flatMap]
  exact ((references_perm s).filter _).map _

theorem undefinedRules_apart (s : Text) :
    (Check.undefinedRules (parse s)).Pairwise fun a b => a.span.stop ≤ b.span.start :=
  List.pairwise_map.mpr ((sites_apart s).sublist List.filter_sublist)

theorem forward_of_mem_undefinedRules {d : Diagnostic} (hd : d ∈ Check.undefinedRules (parse s)) :
    d.span.start < d.span.stop := by
  obtain ⟨site, hsite, rfl⟩ := List.mem_map.mp hd
  exact forward_of_mem_sites (List.mem_filter.mp hsite).1

/-- Sorting what the index has name by name puts it in source order again. -/
theorem sort_undefinedUses (s : Text) :
    Diagnostic.sort (parse s).index.undefinedUses = Check.undefinedRules (parse s) := by
  have hperm : (Diagnostic.sort (parse s).index.undefinedUses).Perm (Check.undefinedRules (parse s)) :=
    (stableSort_perm _).trans (undefinedUses_perm s)
  have hsorted : (Diagnostic.sort (parse s).index.undefinedUses).Pairwise
      fun a b => a.le b = true :=
    stableSort_pairwise (fun a b c hab hbc => @Diagnostic.le_trans a b c hab hbc) (fun _ _ h => h)
      (fun a b h => @Diagnostic.le_total a b h) _
  have hordered : (Check.undefinedRules (parse s)).Pairwise fun a b => a.le b = true := by
    refine (undefinedRules_apart s).imp_of_mem fun {a b} ha _ hapart => Diagnostic.le_iff.mpr ?_
    exact Or.inl (Nat.lt_of_lt_of_le (forward_of_mem_undefinedRules ha) hapart)
  refine List.Perm.eq_of_pairwise (fun a b ha hb hab hba => ?_) hsorted hordered hperm
  have ha := hperm.mem_iff.mp ha
  have hforward := forward_of_mem_undefinedRules ha
  have hforward' := forward_of_mem_undefinedRules hb
  rw [Diagnostic.le_iff] at hab hba
  rcases pairwise_cases (undefinedRules_apart s) ha hb with heq | hapart | hapart
  · exact heq
  · omega
  · omega

theorem mem_undefinedRules_iff {d : Diagnostic} : d ∈ Check.undefinedRules (parse s) ↔
    ∃ site, (parse s).Uses site ∧ (∀ r ∈ (parse s).rules, r.name ≠ site.name) ∧
      d = ⟨.undefinedRule, site.span, s!"undefined rule `{String.ofList site.name}`"⟩ := by
  have hdefined : ∀ n, (!(parse s).isDefined n) = true ↔ ∀ r ∈ (parse s).rules, r.name ≠ n := by
    intro n
    rw [Bool.not_eq_true', ← Bool.not_eq_true, isDefined_iff, names, List.mem_map]
    refine ⟨fun h r hr heq => h ⟨r, hr, heq⟩, fun h hr => ?_⟩
    obtain ⟨r, hr, heq⟩ := hr
    exact h r hr heq
  rw [Check.undefinedRules, List.mem_map]
  constructor
  · rintro ⟨site, hsite, rfl⟩
    obtain ⟨hmem, hnot⟩ := List.mem_filter.mp hsite
    exact ⟨site, mem_sites_iff_uses.mp hmem, (hdefined _).mp hnot, rfl⟩
  · rintro ⟨site, huses, hnot, rfl⟩
    exact ⟨site, List.mem_filter.mpr ⟨mem_sites_iff_uses.mpr huses, (hdefined _).mpr hnot⟩, rfl⟩

theorem duplicateRules_apart (s : Text) :
    (Check.duplicateRules (parse s)).Pairwise fun a b => a.span.stop ≤ b.span.start :=
  List.pairwise_map.mpr
    (List.pairwise_map.mp ((nameMark_apart s).sublist (duplicatesAfter_sublist _ [])))

theorem mem_duplicateRules_iff {d : Diagnostic} : d ∈ Check.duplicateRules (parse s) ↔
    ∃ r ∈ (parse s).rules, ¬(parse s).Defines r.name r ∧
      ∃ first p, (parse s).Defines r.name first ∧ (parse s).position first.nameMark.start = p ∧
        d = ⟨.duplicateRule, r.nameMark,
          s!"rule `{String.ofList r.name}` is already defined at line {p.line}, column {p.column}"⟩ := by
  rw [Check.duplicateRules, List.mem_map]
  constructor
  · rintro ⟨q, hq, rfl⟩
    obtain ⟨before, after, hrules, -, hfirst⟩ := exists_first_of_duplicate hq
    have hr : q.duplicate ∈ (parse s).rules := mem_of_mem_duplicatesAfter hq
    have hnot := (mem_duplicates_iff hr).mp (List.mem_map_of_mem hq)
    exact ⟨q.duplicate, hr, hnot, q.first, _, hfirst, rfl, rfl⟩
  · rintro ⟨r, hr, hnot, first, _, hfirst, rfl, rfl⟩
    obtain ⟨q, hq, rfl⟩ := List.mem_map.mp ((mem_duplicates_iff hr).mpr hnot)
    obtain ⟨-, -, -, -, hfirst'⟩ := exists_first_of_duplicate hq
    rw [hfirst.unique hfirst']
    exact ⟨q, hq, rfl⟩

/-- The name of a rule is cited by the line feeds in front of it and the characters behind the
    last one of these. -/
theorem position_nameMark (hs : s.size < UInt32.size - 1) {r : Rule Span}
    (hr : r ∈ (parse s).rules) : ∃ x y, s = x ++ y ∧ x.size = r.nameMark.start ∧
      (parse s).position r.nameMark.start = ⟨1 + x.count '\n', 1 + x.lastLine.length⟩ := by
  obtain ⟨us, hus, hfits⟩ := (parse_amid s).sublist hr
  obtain ⟨t, ht, hmark, -⟩ := hfits.derives.exists_nameToken
  have hmem := (List.mem_filter.mp (hus.subset ht)).1
  obtain ⟨x, y, hsplit, hstart⟩ := Text.isBoundary_iff.mp ((tiles_tokenize s).bounds t hmem).1
  refine ⟨x, y, hsplit, by rw [hmark, hstart], ?_⟩
  rw [position, lines, source_parse, hmark, hstart, hsplit]
  rw [hsplit] at hs
  exact LineIndex.position_eq hs (Text.standsFor_self x y)

/-- **Names are resolved exactly.**  The index of a text has the first rule of each name, the uses
    of each name in source order, and the other rules with the first of their name.  Its uses over
    all names are those of all bodies, one behind the other in source order, and its definitions
    those that a name is looked up in.  So there is one error at each use of a name without rules,
    in source order, also if they are put together name by name; and one at each rule that has an
    earlier one of its name, with the line and the column of the first. -/
theorem resolution_exact (s : Text) :
    (parse s).Indexed (parse s).index ∧
    ((parse s).index.references.flatMap Prod.snd).Perm (parse s).sites ∧
    ((parse s).sites.map fun site => (site.name, site.span))
      = (parse s).rules.flatMap (fun r => r.body.uses) ∧
    ((parse s).sites.Pairwise fun a b => a.span.stop ≤ b.span.start) ∧
    (∀ n r, (parse s).definition? n = some r ↔ (n, r) ∈ (parse s).index.definitions) ∧
    (∀ d, d ∈ Check.undefinedRules (parse s) ↔
      ∃ site, (parse s).Uses site ∧ (∀ r ∈ (parse s).rules, r.name ≠ site.name) ∧
        d = ⟨.undefinedRule, site.span, s!"undefined rule `{String.ofList site.name}`"⟩) ∧
    ((Check.undefinedRules (parse s)).Pairwise fun a b => a.span.stop ≤ b.span.start) ∧
    Diagnostic.sort (parse s).index.undefinedUses = Check.undefinedRules (parse s) ∧
    (∀ d, d ∈ Check.duplicateRules (parse s) ↔
      ∃ r ∈ (parse s).rules, ¬(parse s).Defines r.name r ∧
        ∃ first p, (parse s).Defines r.name first ∧ (parse s).position first.nameMark.start = p ∧
          d = ⟨.duplicateRule, r.nameMark,
            s!"rule `{String.ofList r.name}` is already defined at line {p.line}, column {p.column}"⟩) ∧
    ((Check.duplicateRules (parse s)).Pairwise fun a b => a.span.stop ≤ b.span.start) ∧
    (s.size < UInt32.size - 1 → ∀ first ∈ (parse s).rules, ∃ x y, s = x ++ y ∧
      x.size = first.nameMark.start ∧ (parse s).position first.nameMark.start
        = ⟨1 + x.count '\n', 1 + x.lastLine.length⟩) := by
  have huses : ((parse s).sites.map fun site => (site.name, site.span))
      = (parse s).rules.flatMap fun r => r.body.uses := by
    rw [map_sites fun use => use]
    simp only [List.map_id']
  have hlookup : ∀ n r, (parse s).definition? n = some r ↔ (n, r) ∈ (parse s).index.definitions :=
    fun n r => definition?_eq_some_iff.trans mem_index_definitions.symm
  exact ⟨indexed s, references_perm s, huses, sites_apart s, hlookup,
    fun _ => mem_undefinedRules_iff, undefinedRules_apart s, sort_undefinedUses s,
    fun _ => mem_duplicateRules_iff, duplicateRules_apart s, fun hs _ => position_nameMark hs⟩

/-- The first rule of `a` is on the second line, behind a line with a character of two bytes. -/
theorem resolution_exact_second_line : ∃ s : Text, s = "b = 'é' ;\n a = z ;\na = y ;".toList ∧
    s.size < UInt32.size - 1 ∧
    (∃ x y, s = x ++ y ∧ x.size = 12 ∧
      (parse s).position 12 = ⟨1 + x.count '\n', 1 + x.lastLine.length⟩) ∧
    (Check.duplicateRules (parse s)).map (fun d => (d.span, d.message))
      = [(⟨20, 21⟩, "rule `a` is already defined at line 2, column 2")] := by
  have hsize : Text.size "b = 'é' ;\n a = z ;\na = y ;".toList < UInt32.size - 1 := by decide +kernel
  have hstart : 12 ∈ (parse "b = 'é' ;\n a = z ;\na = y ;".toList).rules.map (·.nameMark.start) := by
    decide +kernel
  obtain ⟨r, hr, hmark⟩ := List.mem_map.mp hstart
  obtain ⟨-, -, -, -, -, -, -, -, -, -, hcited⟩ :=
    resolution_exact "b = 'é' ;\n a = z ;\na = y ;".toList
  have hplace := hcited hsize r hr
  rw [hmark] at hplace
  exact ⟨_, rfl, hsize, hplace, by decide +kernel⟩

/-- The index has `y` before `z`; the text has a use of `z` first, one in brackets of an exception
    and one in a second rule of `a`. -/
example : ((parse "a = z - [ y ] ; a = y ;".toList).index.undefinedUses.map (·.span),
    (Check.undefinedRules (parse "a = z - [ y ] ; a = y ;".toList)).map (·.span))
      = ([⟨10, 11⟩, ⟨20, 21⟩, ⟨4, 5⟩], [⟨4, 5⟩, ⟨10, 11⟩, ⟨20, 21⟩]) := by
  decide +kernel

end Grammar

end EbnfKit
