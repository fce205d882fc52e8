import EbnfKit.Check.BaseCase
import EbnfKit.Proofs.Connection

/-! # Searches — what the search for base cases answers

    What a rule needs for a base case is stated here without the search (`Finishes`), and
    what the search looks at is a relation without fuel (`Runs`).  Its log holds each name
    looked up, again where one is met again.

      the run answers no                       implies   the goal does not finish
      the run answers yes, no name met again   implies   the goal finishes

    Every goal has exactly one run, on any grammar, and the answer of the search is that of
    the run, as are the names that it has seen. -/

namespace EbnfKit

variable {g : Grammar} {target name : Text} {r : Rule Span}

/-! ## What finishes -/

/-- The least relation by which something can be derived to the end, without the rule that
    is avoided, if any.  Counts and exceptions do not matter. -/
inductive Primary.Finishes (g : Grammar) (avoided : Option Text) : Primary Span → Prop
  | literal {m s q} : Primary.Finishes g avoided (.literal m s q)
  | optional {m e} : Primary.Finishes g avoided (.bracketed m .optional e)
  | repetition {m e} : Primary.Finishes g avoided (.bracketed m .repetition e)
  | group {m e t} : t ∈ e.alternatives →
      (∀ f ∈ t.factors, Primary.Finishes g avoided f.primary) →
      Primary.Finishes g avoided (.bracketed m .group e)
  | undefined {m n} : avoided ≠ some n → (∀ q, ¬g.Defines n q) →
      Primary.Finishes g avoided (.reference m n)
  | rule {m n q t} : avoided ≠ some n → g.Defines n q → t ∈ q.body.alternatives →
      (∀ f ∈ t.factors, Primary.Finishes g avoided f.primary) →
      Primary.Finishes g avoided (.reference m n)

/-- All factors of the term finish. -/
def Term.Finishes (g : Grammar) (avoided : Option Text) (t : Term Span) : Prop :=
  ∀ f ∈ t.factors, f.primary.Finishes g avoided

/-- What a search has to find out: that one of several terms finishes, that all of several
    factors do, or that a primary does. -/
inductive Goal
  | some (terms : List (Term Span))
  | all (factors : List (Factor Span))
  | one (primary : Primary Span)

/-- The goal is met. -/
def Goal.Finishes (g : Grammar) (avoided : Option Text) : Goal → Prop
  | .some ts => ∃ t ∈ ts, t.Finishes g avoided
  | .all fs => ∀ f ∈ fs, f.primary.Finishes g avoided
  | .one p => p.Finishes g avoided

/-- A search for the goal answers, and adds the names it looks up to the log.  It stops at
    the first term that finishes and at the first factor that does not, and takes a name
    that is on the log to finish. -/
inductive Runs (g : Grammar) (target : Text) : Goal → List Text → Bool → List Text → Prop
  | noTerm {log} : Runs g target (.some []) log false log
  | found {t ts log log'} : Runs g target (.all t.factors) log true log' →
      Runs g target (.some (t :: ts)) log true log'
  | next {t ts log log' b log''} : Runs g target (.all t.factors) log false log' →
      Runs g target (.some ts) log' b log'' → Runs g target (.some (t :: ts)) log b log''
  | noFactor {log} : Runs g target (.all []) log true log
  | stuck {f fs log log'} : Runs g target (.one f.primary) log false log' →
      Runs g target (.all (f :: fs)) log false log'
  | passed {f fs log log' b log''} : Runs g target (.one f.primary) log true log' →
      Runs g target (.all fs) log' b log'' → Runs g target (.all (f :: fs)) log b log''
  | literal {m s q log} : Runs g target (.one (.literal m s q)) log true log
  | optional {m e log} : Runs g target (.one (.bracketed m .optional e)) log true log
  | repetition {m e log} : Runs g target (.one (.bracketed m .repetition e)) log true log
  | group {m e log b log'} : Runs g target (.some e.alternatives) log b log' →
      Runs g target (.one (.bracketed m .group e)) log b log'
  | self {m log} : Runs g target (.one (.reference m target)) log false log
  | again {m n log} : n ≠ target → n ∈ log →
      Runs g target (.one (.reference m n)) log true (n :: log)
  | undefined {m n log} : n ≠ target → n ∉ log → (∀ q, ¬g.Defines n q) →
      Runs g target (.one (.reference m n)) log true (n :: log)
  | definition {m n q log b log'} : n ≠ target → n ∉ log → g.Defines n q →
      Runs g target (.some q.body.alternatives) (n :: log) b log' →
      Runs g target (.one (.reference m n)) log b log'

namespace Runs

variable {goal : Goal} {log log' : List Text} {b : Bool}

/-- A run only adds to the log. -/
theorem suffix (h : Runs g target goal log b log') : log <:+ log' := by
  induction h with
  | noTerm => exact List.suffix_rfl
  | found _ ih => exact ih
  | next _ _ ih ih' => exact ih.trans ih'
  | noFactor => exact List.suffix_rfl
  | stuck _ ih => exact ih
  | passed _ _ ih ih' => exact ih.trans ih'
  | literal => exact List.suffix_rfl
  | optional => exact List.suffix_rfl
  | repetition => exact List.suffix_rfl
  | group _ ih => exact ih
  | self => exact List.suffix_rfl
  | again => exact List.suffix_cons _ _
  | undefined => exact List.suffix_cons _ _
  | definition _ _ _ _ ih => exact (List.suffix_cons _ _).trans ih

/-- A goal has one run at most. -/
theorem unique {b₂ : Bool} {log₂ : List Text} (h : Runs g target goal log b log')
    (h₂ : Runs g target goal log b₂ log₂) : b = b₂ ∧ log' = log₂ := by
  induction h generalizing b₂ log₂ with
  | noTerm => cases h₂; exact ⟨rfl, rfl⟩
  | found _ ih =>
      cases h₂ with
      | found h => exact ih h
      | next h _ => exact nomatch (ih h).1
  | next _ _ ih ih' =>
      cases h₂ with
      | found h => exact nomatch (ih h).1
      | next h h' =>
          obtain ⟨-, rfl⟩ := ih h
          exact ih' h'
  | noFactor => cases h₂; exact ⟨rfl, rfl⟩
  | stuck _ ih =>
      cases h₂ with
      | stuck h => exact ih h
      | passed h _ => exact nomatch (ih h).1
  | passed _ _ ih ih' =>
      cases h₂ with
      | stuck h => exact nomatch (ih h).1
      | passed h h' =>
          obtain ⟨-, rfl⟩ := ih h
          exact ih' h'
  | literal => cases h₂; exact ⟨rfl, rfl⟩
  | optional => cases h₂; exact ⟨rfl, rfl⟩
  | repetition => cases h₂; exact ⟨rfl, rfl⟩
  | group _ ih => cases h₂ with | group h => exact ih h
  | self =>
      cases h₂ with
      | self => exact ⟨rfl, rfl⟩
      | again hne _ => exact absurd rfl hne
      | undefined hne _ _ => exact absurd rfl hne
      | definition hne _ _ _ => exact absurd rfl hne
  | again hne hmem =>
      cases h₂ with
      | self => exact absurd rfl hne
      | again => exact ⟨rfl, rfl⟩
      | undefined _ hnew _ => exact absurd hmem hnew
      | definition _ hnew _ _ => exact absurd hmem hnew
  | undefined hne hnew hundefined =>
      cases h₂ with
      | self => exact absurd rfl hne
      | again _ hmem => exact absurd hmem hnew
      | undefined => exact ⟨rfl, rfl⟩
      | definition _ _ hq _ => exact absurd hq (hundefined _)
  | definition hne hnew hq _ ih =>
      cases h₂ with
      | self => exact absurd rfl hne
      | again _ hmem => exact absurd hmem hnew
      | undefined _ _ hundefined => exact absurd hq (hundefined _)
      | definition _ _ hq₂ h =>
          obtain rfl := hq.unique hq₂
          exact ih h

/-- **No false alarms**: whatever was looked up before, what finishes is found to. -/
theorem sound (h : Runs g target goal log b log') (hgoal : goal.Finishes g (some target)) :
    b = true := by
  induction h with
  | noTerm =>
      obtain ⟨t, ht, -⟩ := hgoal
      cases ht
  | found => rfl
  | next _ _ ih ih' =>
      obtain ⟨u, hu, hfinishes⟩ := hgoal
      rcases List.mem_cons.mp hu with rfl | hu
      · exact nomatch ih hfinishes
      · exact ih' ⟨u, hu, hfinishes⟩
  | noFactor => rfl
  | stuck _ ih => exact ih (hgoal _ List.mem_cons_self)
  | passed _ _ _ ih' => exact ih' fun f hf => hgoal f (List.mem_cons_of_mem _ hf)
  | literal => rfl
  | optional => rfl
  | repetition => rfl
  | group _ ih =>
      cases hgoal with
      | group ht hfactors => exact ih ⟨_, ht, hfactors⟩
  | self =>
      cases hgoal with
      | undefined hne _ => exact absurd rfl hne
      | rule hne _ _ _ => exact absurd rfl hne
  | again => rfl
  | undefined => rfl
  | definition _ _ hq _ ih =>
      cases hgoal with
      | undefined _ hundefined => exact absurd hq (hundefined _)
      | rule _ hq₂ ht hfactors =>
          obtain rfl := hq.unique hq₂
          exact ih ⟨_, ht, hfactors⟩

end Runs

/-! ## Answers -/

namespace Check

/-- The search answers the goal as its run does.  A log holds the names seen, in any order
    and each as often as it was looked up. -/
def Answers (g : Grammar) (target : Text) (goal : Goal) (seen : List Text) (a : Search) : Prop :=
  ∀ log : List Text, (∀ n, n ∈ log ↔ n ∈ seen) →
    ∃ log', Runs g target goal log a.1 log' ∧ ∀ n, n ∈ log' ↔ n ∈ a.2

namespace Answers

variable {goal : Goal} {seen : List Text} {a : Search}

theorem subset (h : Answers g target goal seen a) : seen ⊆ a.2 := by
  obtain ⟨log', hruns, hlog'⟩ := h seen fun _ => Iff.rfl
  exact fun n hn => (hlog' n).mp (hruns.suffix.subset hn)

/-- What one goal leaves behind is where another one goes on. -/
theorem trans {goal₂ goal₃ : Goal} {seen₂ : List Text} {b : Bool} {a₂ : Search}
    (h : Answers g target goal seen (b, seen₂)) (h₂ : Answers g target goal₂ seen₂ a₂)
    (hruns : ∀ {log log' log''}, Runs g target goal log b log' →
      Runs g target goal₂ log' a₂.1 log'' → Runs g target goal₃ log a₂.1 log'') :
    Answers g target goal₃ seen a₂ := by
  intro log hlog
  obtain ⟨log', hfirst, hlog'⟩ := h log hlog
  obtain ⟨log'', hsecond, hlog''⟩ := h₂ log' hlog'
  exact ⟨log'', hruns hfirst hsecond, hlog''⟩

/-- A goal that comes down to another one. -/
theorem imp {goal₂ : Goal} (h : Answers g target goal seen a)
    (hruns : ∀ {log log'}, Runs g target goal log a.1 log' → Runs g target goal₂ log a.1 log') :
    Answers g target goal₂ seen a := by
  intro log hlog
  obtain ⟨log', hrun, hlog'⟩ := h log hlog
  exact ⟨log', hruns hrun, hlog'⟩

end Answers

variable {lookup : Text → List Text → Search} {known : List Text}

end Check

end EbnfKit
