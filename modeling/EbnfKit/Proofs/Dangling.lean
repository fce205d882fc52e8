import EbnfKit.Proofs.Rounds

/-! # Dangling names — what a round may leave without a definition

    What is needed is found through definitions.  A later rule of a name is none, so that
    nobody asks what it uses; yet it stays where its name is needed:

      a = 'x' ; a = b ; b = 'y' ;    is turned into    a = 'x' ; a = b ;

    No other removal leaves a name behind:

      a round adds no dangling name   iff   each later rule that stays uses
                                            none but undefined and needed names

    and no name gets another rule. -/

namespace EbnfKit

/-! ## Definitions and later rules -/

/-- A rule is the first of its name, or a duplicate. -/
theorem find?_or_mem_duplicatesAfter {r : Rule Span} {rs : List (Rule Span)} (hr : r ∈ rs) :
    ∀ ds : List (Rule Span), ((ds.find? fun d => d.name == r.name) = none ∧
        (rs.find? fun d => d.name == r.name) = some r) ∨
      r ∈ (duplicatesAfter ds rs).map Duplicate.duplicate := by
  induction rs with
  | nil => cases hr
  | cons q qs ih =>
      intro ds
      rw [duplicatesAfter]
      cases hfind : ds.find? fun d => d.name == q.name with
      | some first =>
          rcases List.mem_cons.mp hr with rfl | hr
          · exact Or.inr List.mem_cons_self
          · refine (ih hr ds).imp (fun ⟨hnone, hfirst⟩ => ⟨hnone, ?_⟩) (List.mem_cons_of_mem _)
            have hne : q.name ≠ r.name := by
              intro heq
              rw [heq, hnone] at hfind
              cases hfind
            rwa [List.find?_cons_of_neg (by simpa using hne)]
      | none =>
          rcases List.mem_cons.mp hr with rfl | hr
          · exact Or.inl ⟨hfind, List.find?_cons_of_pos (beq_self_eq_true _)⟩
          · refine (ih hr (ds ++ [q])).imp_left fun ⟨hnone, hfirst⟩ => ?_
            obtain ⟨hds, hq⟩ := List.forall_mem_append.mp (List.find?_eq_none.mp hnone)
            refine ⟨List.find?_eq_none.mpr hds, ?_⟩
            have hne := hq q (List.mem_singleton_self q)
            rwa [List.find?_cons_of_neg (by exact hne)]

/-- The later rules are rules, in the same order. -/
theorem duplicatesAfter_sublist (rs : List (Rule Span)) :
    ∀ ds : List (Rule Span), ((duplicatesAfter ds rs).map Duplicate.duplicate).Sublist rs := by
  induction rs with
  | nil => exact fun _ => List.Sublist.refl _
  | cons q qs ih =>
      intro ds
      rw [duplicatesAfter]
      split
      · exact (ih ds).cons_cons q
      · exact (ih _).cons q

theorem mem_of_mem_duplicatesAfter {d : Duplicate} {rs ds : List (Rule Span)}
    (hd : d ∈ duplicatesAfter ds rs) : d.duplicate ∈ rs :=
  (duplicatesAfter_sublist rs ds).subset (List.mem_map_of_mem hd)

/-- A name has duplicates if it has more than one rule, those found before included. -/
theorem mem_duplicatesAfter_names {n : Text} {rs : List (Rule Span)} :
    ∀ ds : List (Rule Span), (∀ m, (ds.map Rule.name).count m ≤ 1) →
      (n ∈ (duplicatesAfter ds rs).map (fun d => d.duplicate.name) ↔
        1 < (ds.map Rule.name).count n + (rs.map Rule.name).count n) := by
  induction rs with
  | nil =>
      intro ds hds
      have := hds n
      simp only [duplicatesAfter, List.map_nil, List.not_mem_nil, List.count_nil, false_iff]
      omega
  | cons q qs ih =>
      intro ds hds
      have hcount : ((q :: qs).map Rule.name).count n
          = (qs.map Rule.name).count n + if q.name == n then 1 else 0 := by
        rw [List.map_cons, List.count_cons]
      rw [duplicatesAfter, hcount]
      cases hfind : ds.find? fun d => d.name == q.name with
      | some first =>
          have hpos : 0 < (ds.map Rule.name).count q.name := by
            have hname : first.name = q.name := by simpa using List.find?_some hfind
            rw [← hname]
            exact List.count_pos_iff.mpr (List.mem_map_of_mem (List.mem_of_find?_eq_some hfind))
          show n ∈ q.name :: (duplicatesAfter ds qs).map (fun d => d.duplicate.name) ↔ _
          rw [List.mem_cons, ih ds hds]
          by_cases heq : q.name = n
          · subst heq
            simp only [beq_self_eq_true, if_true, true_or, true_iff]
            omega
          · have hne : ¬n = q.name := fun h => heq h.symm
            simp only [hne, false_or, beq_iff_eq, heq, if_false, Nat.add_zero]
      | none =>
          have hfresh : (ds.map Rule.name).count q.name = 0 := by
            refine List.count_eq_zero.mpr fun hmem => ?_
            obtain ⟨d, hd, hname⟩ := List.mem_map.mp hmem
            exact List.find?_eq_none.mp hfind d hd (beq_iff_eq.mpr hname)
          have hone : ∀ m, ((ds ++ [q]).map Rule.name).count m
              = (ds.map Rule.name).count m + if q.name == m then 1 else 0 := by
            intro m
            rw [List.map_append, List.count_append, List.map_singleton, List.count_singleton]
          show n ∈ (duplicatesAfter (ds ++ [q]) qs).map (fun d => d.duplicate.name) ↔ _
          rw [ih (ds ++ [q]) fun m => ?_, hone]
          · omega
          · rw [hone]
            by_cases heq : q.name = m
            · subst heq
              rw [hfresh, beq_self_eq_true, if_pos rfl]
            · rw [if_neg (by simpa using heq)]
              exact hds m

namespace Grammar

variable {g : Grammar} {n : Text}

/-- Some rule uses the name, and none defines it. -/
def Dangles (g : Grammar) (n : Text) : Prop :=
  n ∈ g.sites.map Site.name ∧ g.isDefined n = false

/-- The name has a rule after its definition. -/
def Repeats (g : Grammar) (n : Text) : Prop :=
  n ∈ g.duplicates.map fun d => d.duplicate.name

/-- What the later rules use, so far as these stay, is undefined or needed. -/
def LaterUsesNeeded (g : Grammar) : Prop :=
  ∀ d ∈ g.duplicates, g.Reaches d.duplicate.name →
    ∀ n ∈ d.duplicate.body.uses.map Prod.fst, g.isDefined n = true → g.Reaches n

instance (g : Grammar) : DecidablePred g.Dangles := fun _ => inferInstanceAs (Decidable (_ ∧ _))

instance (g : Grammar) : DecidablePred g.Repeats := fun _ => inferInstanceAs (Decidable (_ ∈ _))

/-- The uses of all rules are those of each, whatever is made of them. -/
theorem map_sites {β : Type} (f : Text × Span → β) :
    (g.sites.map fun site => f (site.name, site.span)) = g.rules.flatMap fun r => r.body.uses.map f := by
  rw [sites, List.map_flatMap]
  simp only [List.map_map, Function.comp_def]
  rw [← List.flatMap_map Prod.fst fun r : Rule Span => r.body.uses.map f, List.zipIdx_map_fst]

theorem mem_sites_iff :
    n ∈ g.sites.map Site.name ↔ ∃ r ∈ g.rules, n ∈ r.body.uses.map Prod.fst := by
  rw [show g.sites.map Site.name = _ from map_sites Prod.fst, List.mem_flatMap]

theorem isDefined_iff : g.isDefined n = true ↔ n ∈ g.names := by
  rw [isDefined, definition?, List.find?_isSome, names, List.mem_map]
  exact exists_congr fun r => and_congr_right fun _ => beq_iff_eq

/-- The names with a later rule are those that several rules have. -/
theorem repeats_iff : g.Repeats n ↔ 1 < g.names.count n := by
  have hiff := @mem_duplicatesAfter_names n g.rules [] fun m => Nat.zero_le 1
  rwa [List.map_nil, List.count_nil, Nat.zero_add] at hiff

/-- What the definition of a needed name uses is undefined or needed. -/
theorem Reaches.uses {a : Text} {r : Rule Span} (ha : g.Reaches a) (hr : g.definition? a = some r)
    (hn : n ∈ r.body.uses.map Prod.fst) (hdefined : g.isDefined n = true) : g.Reaches n := by
  obtain ⟨start, hstart, hchain⟩ := ha
  exact ⟨start, hstart, hchain.tail ⟨r, hr, hn, hdefined⟩⟩

/-! ## A round -/

variable {s s' : Text} {fixes : List Fix}

/-- What is left has the names that are needed, in order. -/
theorem Round.names (h : Round s fixes s') (hclean : (parse s').diagnostics = []) :
    (parse s').names = (parse s).names.filter fun n => (parse s).Reaches n := by
  have hnames : List.Forall₂ (fun m n => n = m)
      (((parse s).rules.filter fun r => (parse s).Reaches r.name).map Rule.name)
      ((parse s').rules.map Rule.name) := by
    rw [List.forall₂_map_left_iff, List.forall₂_map_right_iff]
    exact (h.rules hclean).imp fun r r' hr => hr.name
  rw [Grammar.names, Grammar.names, List.filter_map]
  exact List.forall₂_eq_eq_eq ▸ hnames.flip

/-- What is left uses the names that the needed rules use. -/
theorem Round.uses_iff (h : Round s fixes s') (hclean : (parse s').diagnostics = []) :
    n ∈ (parse s').sites.map Site.name ↔
      ∃ r ∈ (parse s).rules, (parse s).Reaches r.name ∧ n ∈ r.body.uses.map Prod.fst := by
  have hsame : ∀ {rs rs' : List (Rule Span)},
      List.Forall₂ (fun r r' => Rule.Revised fixes r r'.shape) rs rs' →
        ((∃ r' ∈ rs', n ∈ r'.body.uses.map Prod.fst) ↔ ∃ r ∈ rs, n ∈ r.body.uses.map Prod.fst) := by
    intro rs rs' hrevised
    induction hrevised with
    | nil => simp
    | @cons r r' rs rs' hr _ ih =>
        have huses := hr.uses n
        rw [show r'.shape.body.uses.map Prod.fst = r'.body.uses.map Prod.fst from
          r'.body.uses_map _] at huses
        simp only [List.mem_cons, exists_eq_or_imp, huses, ih]
  rw [mem_sites_iff, hsame (h.rules hclean)]
  refine exists_congr fun r => ?_
  rw [List.mem_filter, decide_eq_true_iff, and_assoc]

/-- A name dangles after the round if a rule that stays uses it, and it has no definition or
    one that is not needed. -/
theorem Round.dangles_iff (h : Round s fixes s') (hclean : (parse s').diagnostics = []) :
    (parse s').Dangles n ↔
      (∃ r ∈ (parse s).rules, (parse s).Reaches r.name ∧ n ∈ r.body.uses.map Prod.fst) ∧
        ¬((parse s).isDefined n = true ∧ (parse s).Reaches n) := by
  rw [Dangles, h.uses_iff hclean, ← Bool.not_eq_true, isDefined_iff, isDefined_iff, h.names hclean,
    List.mem_filter, decide_eq_true_iff]

/-- **When a round leaves a name behind**: no name dangles that did not before exactly if the
    later rules that stay use no definition that is not needed. -/
theorem Round.adds_no_dangling_iff (h : Round s fixes s') (hclean : (parse s').diagnostics = []) :
    (∀ n, (parse s').Dangles n → (parse s).Dangles n) ↔ (parse s).LaterUsesNeeded := by
  constructor
  · intro hnone d hd hreaches n hn hdefined
    by_contra hunneeded
    have hr : d.duplicate ∈ (parse s).rules := mem_of_mem_duplicatesAfter hd
    have hdangles := hnone n ((h.dangles_iff hclean).mpr
      ⟨⟨d.duplicate, hr, hreaches, hn⟩, fun hneeded => hunneeded hneeded.2⟩)
    rw [hdangles.2] at hdefined
    cases hdefined
  · intro hlater n hdangles
    obtain ⟨⟨r, hr, hreaches, hn⟩, hleft⟩ := (h.dangles_iff hclean).mp hdangles
    refine ⟨mem_sites_iff.mpr ⟨r, hr, hn⟩, Bool.eq_false_iff.mpr fun hdefined => hleft ⟨hdefined, ?_⟩⟩
    rcases find?_or_mem_duplicatesAfter hr [] with ⟨-, hfirst⟩ | hduplicate
    · exact hreaches.uses hfirst hn hdefined
    · obtain ⟨d, hd, rfl⟩ := List.mem_map.mp hduplicate
      exact hlater d hd hreaches n hn hdefined

/-- No name gets another rule. -/
theorem Round.repeats (h : Round s fixes s') (hclean : (parse s').diagnostics = [])
    (hn : (parse s').Repeats n) : (parse s).Repeats n := by
  rw [repeats_iff, h.names hclean] at hn
  exact repeats_iff.mpr (Nat.lt_of_lt_of_le hn (List.filter_sublist.count_le n))

/-- **What a round does to names**: where the text that comes out has no syntax errors, no
    name has several rules that had one only, and no name dangles that did not before exactly
    if the later rules that stay use no definition that is not needed. -/
theorem round_dangles_iff (s : Text) (h : (parse s).diagnostics = []) :
    ∃ fixes s', Fix.offerAll (parse s) (parse s).analyze = .ok fixes ∧
      Fix.apply s fixes = .ok s' ∧
      ((parse s').diagnostics = [] →
        (∀ n, (parse s').Repeats n → (parse s).Repeats n) ∧
          ((∀ n, (parse s').Dangles n → (parse s).Dangles n) ↔ (parse s).LaterUsesNeeded)) := by
  obtain ⟨fixes, s', hoffer, happly, hround⟩ := exists_round h
  exact ⟨fixes, s', hoffer, happly, fun hclean =>
    ⟨fun n => hround.repeats hclean, hround.adds_no_dangling_iff hclean⟩⟩

/-- A later rule uses a definition that nobody needs, and is left without it. -/
theorem round_dangles_later_rule :
    (parse "a = 'x' ; a = b ; b = 'y' ;".toList).diagnostics = [] ∧
      ¬(parse "a = 'x' ; a = b ; b = 'y' ;".toList).LaterUsesNeeded ∧
      (parse "a = 'x' ; a = b ; ".toList).Dangles "b".toList := by
  have hclean : (parse "a = 'x' ; a = b ; b = 'y' ;".toList).diagnostics = [] := by
    decide +kernel
  have hclean' : (parse "a = 'x' ; a = b ; ".toList).diagnostics = [] := by
    decide +kernel
  have hround : ((Fix.offerAll (parse "a = 'x' ; a = b ; b = 'y' ;".toList)
      (parse "a = 'x' ; a = b ; b = 'y' ;".toList).analyze).toOption.bind
        fun fixes => (Fix.apply "a = 'x' ; a = b ; b = 'y' ;".toList fixes).toOption)
          = some "a = 'x' ; a = b ; ".toList := by
    decide +kernel
  have hdangles : (parse "a = 'x' ; a = b ; ".toList).Dangles "b".toList := by
    decide +kernel
  have hbefore : ¬(parse "a = 'x' ; a = b ; b = 'y' ;".toList).Dangles "b".toList := by
    decide +kernel
  obtain ⟨fixes, s', hoffer, happly, hiff⟩ := round_dangles_iff _ hclean
  have hs' : s' = "a = 'x' ; a = b ; ".toList := by
    rw [hoffer] at hround
    have hsome : (Fix.apply "a = 'x' ; a = b ; b = 'y' ;".toList fixes).toOption
        = some "a = 'x' ; a = b ; ".toList := hround
    rw [happly] at hsome
    exact Option.some.inj hsome
  subst hs'
  exact ⟨hclean, fun hneeded => hbefore ((hiff hclean').2.mpr hneeded _ hdangles), hdangles⟩

end Grammar

end EbnfKit
