import EbnfKit.Proofs.Dangling
import EbnfKit.Proofs.Marks
import EbnfKit.Proofs.Numbering
import EbnfKit.Proofs.Sorting

/-! # Reports — what the checks say, wherever it is said

    A check hands marks on, and a report sorts by them.  Texts whose rules have the same
    shapes have the same marks, counted in tokens, and what is found sits on tokens, so that
    counting keeps its order:

      s and s' with rules of the same shapes   imply   their reports say the same, in order

    What a grammar prints is such a text. -/

namespace EbnfKit

/-! ## Where problems are -/

namespace Grammar

variable {s : Text}

/-- A node sits on tokens. -/
theorem node_sits {n : Node Span} (hn : n ∈ (parse s).nodes) :
    n.mark.Sits (significant s) := by
  obtain ⟨us, hus, hnode⟩ := node_derives hn
  rw [show n.mark = Span.over us from hnode.marks]
  exact Span.sits_over hnode.ne_nil hus.sublist

/-- The name of a rule sits on its token. -/
theorem nameMark_sits {r : Rule Span} (hr : r ∈ (parse s).rules) :
    r.nameMark.Sits (significant s) := by
  obtain ⟨ts, hts, hfits⟩ := (parse_amid s).sublist hr
  cases hfits.derives with
  | @mk x e us c nm _ _ _ _ _ _ hnm _ =>
      rw [show nm = Span.over [x] from hnm]
      exact Span.sits_over (List.cons_ne_nil _ _)
        ((List.singleton_sublist.mpr List.mem_cons_self).trans hts)

/-- A fix within a body sits on the tokens that it rewrites. -/
theorem body_fix_sits (h : (parse s).diagnostics = []) {f : Fix}
    (hf : ∃ r ∈ (parse s).rules, f ∈ r.body.fixes) : f.span.Sits (significant s) := by
  obtain ⟨r, hr, hf⟩ := hf
  obtain ⟨us, -, hne, hus, hspan, -, -⟩ := rewrites_of_body_fix h hr hf
  rw [hspan]
  exact Span.sits_over hne hus

theorem site_sits {site : Site} (hsite : site ∈ (parse s).sites) :
    site.span.Sits (significant s) := by
  obtain ⟨entry, hentry, hsite⟩ := List.mem_flatMap.mp hsite
  obtain ⟨use, huse, rfl⟩ := List.mem_map.mp hsite
  obtain ⟨n, hn, hname⟩ := List.mem_filterMap.mp huse
  have hmark : n.mark = use.2 := by
    rw [Node.use?_eq_some_iff.mp hname]
    rfl
  have hr : entry.1 ∈ (parse s).rules := by
    rw [← List.zipIdx_map_fst 0 (parse s).rules]
    exact List.mem_map_of_mem hentry
  rw [← hmark]
  exact node_sits (List.mem_flatMap.mpr ⟨entry.1, hr, hn⟩)

/-- **Whatever a check finds sits on tokens.** -/
theorem run_sits (h : (parse s).diagnostics = []) {asked : Option Text} {pass : Pass}
    {d : Diagnostic} (hd : d ∈ pass.run (parse s) asked) : d.span.Sits (significant s) := by
  cases pass with
  | undefinedRule =>
      obtain ⟨site, hsite, rfl⟩ := List.mem_map.mp hd
      exact site_sits (List.mem_filter.mp hsite).1
  | duplicateRule =>
      obtain ⟨q, hq, rfl⟩ := List.mem_map.mp hd
      exact nameMark_sits (mem_of_mem_duplicatesAfter hq)
  | unreachableRule =>
      rw [Pass.run, Check.unreachableRules] at hd
      split at hd
      · cases hd
      · obtain ⟨r, hr, rfl⟩ := List.mem_map.mp hd
        exact nameMark_sits (List.mem_filter.mp hr).1
  | recursion =>
      obtain ⟨r, hr, rfl⟩ := List.mem_map.mp hd
      exact nameMark_sits ((distinctBy_sublist _ _).subset (List.mem_filter.mp hr).1)
  | ambiguousPrefix =>
      obtain ⟨e, he, hd⟩ := List.mem_filterMap.mp hd
      obtain ⟨n, hn, hne⟩ := List.mem_filterMap.mp he
      rw [Check.ambiguousExpression?] at hd
      split at hd
      · cases hd
      · rw [← Option.some.inj hd]
        cases n with
        | expression e' =>
            obtain rfl := Option.some.inj hne
            exact node_sits hn
        | term t => cases hne
        | factor f => cases hne
        | primary p => cases hne
  | redundantParentheses =>
      obtain ⟨q, hq, rfl⟩ := List.mem_map.mp hd
      exact body_fix_sits h (exists_rule_dropParentheses hq)
  | simplifiableRepetition =>
      obtain ⟨r, hr, rfl⟩ := List.mem_map.mp hd
      exact body_fix_sits h (exists_rule_countRun hr)

end Grammar

/-! ## Saying the same -/

/-- What is said of a rule after the first of its name, which stands at the position. -/
def alreadyDefined (name : Text) (first : Position) : String :=
  s!"rule `{String.ofList name}` is already defined at line {first.line}, column {first.column}"

/-- The same problem and the same words, but for the position that these tell of a rule that
    has been defined already. -/
structure Diagnostic.SaysAlike (d d' : Diagnostic) : Prop where
  problem : d'.problem = d.problem
  message : d'.message = d.message ∨ d.problem = .duplicateRule ∧ ∃ name first first',
    d.message = alreadyDefined name first ∧ d'.message = alreadyDefined name first'

/-- The same is said of the same tokens. -/
structure Diagnostic.Answers (ts us : List Token) (d d' : Diagnostic) : Prop where
  alike : d.SaysAlike d'
  place : d'.span.countedIn us = d.span.countedIn ts
  sits : d.span.Sits ts
  sits' : d'.span.Sits us

/-- So diagnostics that answer each other are in the same order. -/
theorem Diagnostic.Answers.le_eq {ts us : List Token} {a b a' b' : Diagnostic}
    (ha : a.Answers ts us a') (hb : b.Answers ts us b') : a'.le b' = a.le b := by
  obtain ⟨hbefore, hsame⟩ := ha.sits.before_countedIn hb.sits
  obtain ⟨hbefore', hsame'⟩ := ha.sits'.before_countedIn hb.sits'
  rw [ha.place, hb.place] at hbefore' hsame'
  have hbeq : (a'.span == b'.span) = (a.span == b.span) := by
    rw [Bool.eq_iff_iff, beq_iff_eq, beq_iff_eq, ← hsame, ← hsame']
  rw [le, le, ← hbefore', hbefore, hbeq, ha.alike.problem, hb.alike.problem]

/-- What comes to the same, item by item. -/
theorem forall₂_of_map_eq {α β γ : Type} {f : α → γ} {g : β → γ} {as : List α} {bs : List β}
    (h : bs.map g = as.map f) : List.Forall₂ (fun a b => g b = f a ∧ a ∈ as ∧ b ∈ bs) as bs := by
  have hlength : as.length = bs.length := by simpa using (congrArg List.length h).symm
  refine List.forall₂_iff_get.mpr ⟨hlength, fun i hi hi' => ⟨?_, List.get_mem _ _, List.get_mem _ _⟩⟩
  have hget := congrArg (fun xs => xs[i]?) h
  simpa [hi, hi'] using hget

namespace Grammar

variable {s s' : Text}

/-- A check finds the same in texts whose rules have the same shapes. -/
theorem run_answers (h : (parse s).diagnostics = []) (h' : (parse s').diagnostics = [])
    (hshapes : (parse s').rules.map Rule.shape = (parse s).rules.map Rule.shape)
    (asked : Option Text) (pass : Pass) :
    List.Forall₂ (Diagnostic.Answers (significant s) (significant s')) (pass.run (parse s) asked)
      (pass.run (parse s') asked) := by
  have hrules := rules_countedIn h h' hshapes
  -- the grammar between the two, with its marks counted in tokens
  let k : Grammar :=
    { parse s with rules := (parse s).rules.map (Rule.map (Span.countedIn (significant s))) }
  have hk : (parse s).Marked (Span.countedIn (significant s)) k := rfl
  have hk' : (parse s').Marked (Span.countedIn (significant s')) k := hrules.symm
  by_cases hpass : pass = .duplicateRule
  · subst hpass
    have hduplicates := forall₂_of_map_eq (hk'.duplicates.symm.trans hk.duplicates)
    show List.Forall₂ _ ((parse s).duplicates.map _) ((parse s').duplicates.map _)
    rw [List.forall₂_map_left_iff, List.forall₂_map_right_iff]
    refine hduplicates.imp fun q q' ⟨hsame, hq, hq'⟩ => ?_
    obtain ⟨hname, hplace, -, -⟩ := Rule.mk.inj (congrArg Duplicate.duplicate hsame)
    have hname' : q'.duplicate.name = q.duplicate.name := hname
    refine ⟨⟨rfl, Or.inr ⟨rfl, q.duplicate.name, _, (parse s').position q'.first.nameMark.start,
      rfl, ?_⟩⟩, hplace, nameMark_sits (mem_of_mem_duplicatesAfter hq),
      nameMark_sits (mem_of_mem_duplicatesAfter hq')⟩
    rw [← hname']
    rfl
  · have hruns := forall₂_of_map_eq
      ((Pass.run_marked hk' (Span.countedIn_join _) asked hpass).symm.trans
        (Pass.run_marked hk (Span.countedIn_join _) asked hpass))
    refine hruns.imp fun d d' ⟨hsame, hd, hd'⟩ => ?_
    obtain ⟨hproblem, hplace, hmessage⟩ := Diagnostic.mk.inj hsame
    exact ⟨⟨hproblem, Or.inl hmessage⟩, hplace, run_sits h hd, run_sits h' hd'⟩

/-- **Reports depend on shapes**: texts without syntax errors whose rules have the same shapes
    get reports that say the same, in the same order. -/
theorem check_alike (h : (parse s).diagnostics = []) (h' : (parse s').diagnostics = [])
    (hshapes : (parse s').rules.map Rule.shape = (parse s).rules.map Rule.shape) (c : Config) :
    List.Forall₂ Diagnostic.SaysAlike ((parse s).check c).diagnostics
      ((parse s').check c).diagnostics := by
  have hfound : ∀ passes : List Pass,
      List.Forall₂ (Diagnostic.Answers (significant s) (significant s'))
        (passes.flatMap (Pass.run (parse s) c.startRule))
        (passes.flatMap (Pass.run (parse s') c.startRule)) := by
    intro passes
    induction passes with
    | nil => exact .nil
    | cons pass passes ih =>
        rw [List.flatMap_cons, List.flatMap_cons]
        exact List.rel_append (run_answers h h' hshapes c.startRule pass) ih
  have hsorted : List.Forall₂ (Diagnostic.Answers (significant s) (significant s'))
      (stableSort Diagnostic.le _) (stableSort Diagnostic.le _) :=
    stableSort_forall₂ (fun ha hb => ha.le_eq hb) (hfound c.passes)
  show List.Forall₂ _ (stableSort _ ((parse s).diagnostics ++ _))
    (stableSort _ ((parse s').diagnostics ++ _))
  rw [h, h']
  exact hsorted.imp fun d d' hd => hd.alike

/-- Reports that say the same count the same. -/
theorem errors_eq_of_alike {r r' : Report}
    (h : List.Forall₂ Diagnostic.SaysAlike r.diagnostics r'.diagnostics) :
    r'.diagnostics.length = r.diagnostics.length ∧ r'.errors = r.errors ∧ r'.warnings = r.warnings := by
  have hlength : r'.diagnostics.length = r.diagnostics.length := h.length_eq.symm
  have herrors : r'.errors = r.errors := by
    rw [Report.errors, Report.errors]
    generalize r.diagnostics = ds at h
    generalize r'.diagnostics = ds' at h
    induction h with
    | nil => rfl
    | @cons d d' ds ds' hd _ ih =>
        have hsame : d'.isError = d.isError := by
          rw [Diagnostic.isError, Diagnostic.isError, Diagnostic.severity, Diagnostic.severity,
            hd.problem]
        rw [List.countP_cons, List.countP_cons, ih, hsame]
  exact ⟨hlength, herrors, by rw [Report.warnings, Report.warnings, hlength, herrors]⟩

/-- **Checks do not look at the layout**: what a grammar without syntax errors prints gets a
    report that says the same as the one on the grammar itself, in the same order, and counts
    as many errors and warnings. -/
theorem check_ignores_layout (s : Text) (h : (parse s).diagnostics = []) (c : Config) :
    List.Forall₂ Diagnostic.SaysAlike ((parse s).check c).diagnostics
        ((parse (parse s).render).check c).diagnostics ∧
      ((parse (parse s).render).check c).diagnostics.length
        = ((parse s).check c).diagnostics.length ∧
      ((parse (parse s).render).check c).errors = ((parse s).check c).errors ∧
      ((parse (parse s).render).check c).warnings = ((parse s).check c).warnings ∧
      ((parse (parse s).render).check c).passesRun = ((parse s).check c).passesRun := by
  obtain ⟨hclean, hentries⟩ := parse_render s
  have hshapes : (parse (parse s).render).rules.map Rule.shape = (parse s).rules.map Rule.shape := by
    have hfirst := congrArg (List.map Prod.fst) hentries
    rwa [List.map_map, List.map_map] at hfirst
  have halike := check_alike h hclean hshapes c
  obtain ⟨hlength, herrors, hwarnings⟩ := errors_eq_of_alike halike
  have hpasses : ∀ g : Grammar, (g.check c).passesRun = c.passes := fun _ => rfl
  exact ⟨halike, hlength, herrors, hwarnings, (hpasses _).trans (hpasses _).symm⟩

/-- A comment, a count with zeros and a blank line go when the rules are printed, and the six
    problems stay. -/
theorem check_ignores_layout_two_lines :
    (parse "(*c*) a = 007 * b , ( 'x' ) ;\n\nb = b ; a = 'y' | 'y' ;".toList).diagnostics = [] ∧
      (parse "(*c*) a = 007 * b , ( 'x' ) ;\n\nb = b ; a = 'y' | 'y' ;".toList).render
        = "(* c *)\na = 7 * b, ( 'x' ) ;\nb = b ;\na = 'y' | 'y' ;\n".toList ∧
      ((parse "(* c *)\na = 7 * b, ( 'x' ) ;\nb = b ;\na = 'y' | 'y' ;\n".toList).check
        ⟨Pass.all, some "b".toList⟩).errors = 1 ∧
      ((parse "(* c *)\na = 7 * b, ( 'x' ) ;\nb = b ;\na = 'y' | 'y' ;\n".toList).check
        ⟨Pass.all, some "b".toList⟩).warnings = 5 ∧
      List.Forall₂ Diagnostic.SaysAlike
        ((parse "(*c*) a = 007 * b , ( 'x' ) ;\n\nb = b ; a = 'y' | 'y' ;".toList).check
          ⟨Pass.all, some "b".toList⟩).diagnostics
        ((parse "(* c *)\na = 7 * b, ( 'x' ) ;\nb = b ;\na = 'y' | 'y' ;\n".toList).check
          ⟨Pass.all, some "b".toList⟩).diagnostics := by
  have hclean : (parse "(*c*) a = 007 * b , ( 'x' ) ;\n\nb = b ; a = 'y' | 'y' ;".toList).diagnostics
      = [] := by
    decide +kernel
  have hrender : (parse "(*c*) a = 007 * b , ( 'x' ) ;\n\nb = b ; a = 'y' | 'y' ;".toList).render
      = "(* c *)\na = 7 * b, ( 'x' ) ;\nb = b ;\na = 'y' | 'y' ;\n".toList := by
    decide +kernel
  have halike := (check_ignores_layout _ hclean ⟨Pass.all, some "b".toList⟩).1
  rw [hrender] at halike
  exact ⟨hclean, hrender, by decide +kernel, by decide +kernel, halike⟩

end Grammar

end EbnfKit
