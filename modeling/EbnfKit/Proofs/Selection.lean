import EbnfKit.Proofs.Offering
import EbnfKit.Proofs.Problems
import EbnfKit.Proofs.Sorting

/-! # Selections — what some of the checks report

    Each check looks for a problem of its own, and the parser for syntax errors only.  So the
    report of some checks is the report of all of them with the other problems left out, in
    the same order:

      check ⟨chosen, r⟩  =  check ⟨all, r⟩ without what neither the parser found
                                           nor a check in chosen

    What is left out is told by its kind, and sorting keeps the order of what is left. -/

namespace EbnfKit

/-! ## The order of a report -/

namespace Diagnostic

variable {a b c : Diagnostic}

theorem le_iff : a.le b = true ↔ a.span.start < b.span.start ∨ (a.span.start = b.span.start ∧
    (a.span.stop < b.span.stop ∨ (a.span.stop = b.span.stop ∧ a.problem.rank ≤ b.problem.rank))) := by
  obtain ⟨_, ⟨start, stop⟩, _⟩ := a
  obtain ⟨_, ⟨start', stop'⟩, _⟩ := b
  simp only [le, Span.before, Bool.or_eq_true, Bool.and_eq_true, decide_eq_true_eq, beq_iff_eq,
    Span.mk.injEq]
  omega

theorem le_trans (hab : a.le b = true) (hbc : b.le c = true) : a.le c = true := by
  rw [le_iff] at hab hbc ⊢
  omega

theorem le_total (h : a.le b = false) : b.le a = true := by
  rw [← Bool.not_eq_true, le_iff] at h
  rw [le_iff]
  omega

theorem sort_filter (p : Diagnostic → Bool) (ds : List Diagnostic) :
    (sort ds).filter p = sort (ds.filter p) :=
  @stableSort_filter _ le (fun _ _ _ => le_trans) p (fun _ _ => le_total) ds

end Diagnostic

/-! ## What is chosen -/

namespace Pass

theorem mem_all (pass : Pass) : pass ∈ all := by
  cases pass <;> decide

theorem mem_ordered {chosen : List Pass} {pass : Pass} : pass ∈ ordered chosen ↔ pass ∈ chosen := by
  rw [ordered, List.mem_filter, List.contains_eq_mem, decide_eq_true_iff]
  exact and_iff_right pass.mem_all

/-- Checks that are chosen run in the order of their ranks, each once. -/
theorem ordered_pairwise (chosen : List Pass) :
    (ordered chosen).Pairwise fun pass pass' => pass.rank < pass'.rank := by
  have hall : all.Pairwise fun pass pass' => pass.rank < pass'.rank := by decide
  exact hall.sublist List.filter_sublist

/-- No check looks for syntax errors. -/
theorem problem_ne_syntaxError (pass : Pass) : pass.problem ≠ .syntaxError := by
  cases pass <;> decide

end Pass

/-- The problem is one of syntax, or one that a chosen check looks for. -/
def Problem.Concerns (problem : Problem) (chosen : List Pass) : Prop :=
  problem = .syntaxError ∨ ∃ pass ∈ chosen, pass.problem = problem

instance (problem : Problem) (chosen : List Pass) : Decidable (problem.Concerns chosen) :=
  inferInstanceAs (Decidable (_ ∨ _))

theorem Pass.concerns_iff {pass : Pass} {chosen : List Pass} :
    pass.problem.Concerns chosen ↔ pass ∈ chosen := by
  constructor
  · rintro (h | ⟨pass', hmem, h⟩)
    · exact absurd h pass.problem_ne_syntaxError
    · exact problem_injective h ▸ hmem
  · exact fun hmem => Or.inr ⟨pass, hmem, rfl⟩

namespace Grammar

variable {s : Text}

/-- Of what one check finds all is left if it was chosen, and else nothing. -/
theorem run_filter (g : Grammar) (asked : Option Text) (chosen : List Pass) (pass : Pass) :
    (pass.run g asked).filter (fun d => d.problem.Concerns chosen)
      = if pass ∈ chosen then pass.run g asked else [] := by
  split
  · rename_i hmem
    refine List.filter_eq_self.mpr fun d hd => decide_eq_true ?_
    rw [Pass.problem_of_mem_run hd]
    exact Pass.concerns_iff.mpr hmem
  · rename_i hmem
    refine List.filter_eq_nil_iff.mpr fun d hd h => hmem ?_
    rw [Pass.problem_of_mem_run hd] at h
    exact Pass.concerns_iff.mp (of_decide_eq_true h)

/-- What the chosen checks find is what is left of what all find. -/
theorem found_filter (g : Grammar) (asked : Option Text) (chosen : List Pass) :
    (Pass.all.flatMap (Pass.run g asked)).filter (fun d => d.problem.Concerns chosen)
      = (Pass.ordered chosen).flatMap (Pass.run g asked) := by
  rw [List.filter_flatMap, Pass.ordered]
  generalize Pass.all = passes
  induction passes with
  | nil => rfl
  | cons pass passes ih =>
      rw [List.flatMap_cons, ih, run_filter, List.filter_cons]
      by_cases hmem : pass ∈ chosen
      · rw [if_pos hmem, if_pos (by simpa using hmem), List.flatMap_cons]
      · rw [if_neg hmem, if_neg (by simpa using hmem), List.nil_append]

end Grammar

/-- Whatever is no error is a warning. -/
theorem Report.warnings_eq (r : Report) :
    r.warnings = r.diagnostics.countP fun d => d.severity == .warning := by
  have hwarning : ∀ d : Diagnostic, (d.severity == .warning) = decide ¬d.isError = true := by
    intro d
    rw [Diagnostic.isError]
    cases d.severity <;> rfl
  have hsplit := List.length_eq_countP_add_countP Diagnostic.isError (l := r.diagnostics)
  simp only [hwarning]
  rw [warnings, errors, hsplit, Nat.add_sub_cancel_left]

namespace Grammar

/-- **Checks are independent.**  The report of chosen checks is what is left of the report of
    all when only syntax errors and what the chosen ones look for are kept.  It names these
    checks, each once and in order, and counts what it holds.  The diagnostics of all checks by
    themselves are the default report without the syntax errors. -/
theorem check_chosen (s : Text) (chosen : List Pass) (asked : Option Text) :
    ((parse s).check ⟨Pass.ordered chosen, asked⟩).diagnostics
        = ((parse s).check ⟨Pass.all, asked⟩).diagnostics.filter
            (fun d => d.problem.Concerns chosen) ∧
      (((parse s).check ⟨Pass.ordered chosen, asked⟩).passesRun.Pairwise
        fun pass pass' => pass.rank < pass'.rank) ∧
      (∀ pass, pass ∈ ((parse s).check ⟨Pass.ordered chosen, asked⟩).passesRun ↔ pass ∈ chosen) ∧
      ((parse s).check ⟨Pass.ordered chosen, asked⟩).errors
        = ((parse s).check ⟨Pass.ordered chosen, asked⟩).diagnostics.countP
            (fun d => d.severity == .error) ∧
      ((parse s).check ⟨Pass.ordered chosen, asked⟩).warnings
        = ((parse s).check ⟨Pass.ordered chosen, asked⟩).diagnostics.countP
            (fun d => d.severity == .warning) ∧
      (parse s).analyze
        = ((parse s).check {}).diagnostics.filter (fun d => d.problem ≠ .syntaxError) := by
  have hbroken : ∀ d ∈ (parse s).diagnostics, d.problem = .syntaxError :=
    fun d hd => problem_of_mem_diagnostics hd
  refine ⟨?_, Pass.ordered_pairwise chosen, fun pass => Pass.mem_ordered, rfl,
    Report.warnings_eq _, ?_⟩
  · have hkept : (parse s).diagnostics.filter (fun d => d.problem.Concerns chosen)
        = (parse s).diagnostics :=
      List.filter_eq_self.mpr fun d hd => decide_eq_true (Or.inl (hbroken d hd))
    show Diagnostic.sort _ = (Diagnostic.sort _).filter _
    rw [Diagnostic.sort_filter, List.filter_append, hkept, found_filter]
  · have hdropped : (parse s).diagnostics.filter (fun d => d.problem ≠ .syntaxError) = [] :=
      List.filter_eq_nil_iff.mpr fun d hd h => of_decide_eq_true h (hbroken d hd)
    have hfound : (Pass.all.flatMap (Pass.run (parse s) none)).filter
        (fun d => d.problem ≠ .syntaxError) = Pass.all.flatMap (Pass.run (parse s) none) := by
      refine List.filter_eq_self.mpr fun d hd => decide_eq_true ?_
      obtain ⟨pass, -, hd⟩ := List.mem_flatMap.mp hd
      rw [Pass.problem_of_mem_run hd]
      exact pass.problem_ne_syntaxError
    show Diagnostic.sort _ = (Diagnostic.sort _).filter _
    rw [Diagnostic.sort_filter, List.filter_append, hdropped, List.nil_append, hfound]

/-- The syntax error stays, whatever is chosen. -/
example : ((parse "s = 'a' | 'a', t ; u = ;".toList).check
      ⟨Pass.ordered [.ambiguousPrefix, .undefinedRule], none⟩).diagnostics.map (·.problem)
    = [.ambiguousPrefix, .undefinedRule, .syntaxError] := by
  decide +kernel

end Grammar

end EbnfKit
