import Mathlib.Data.List.Basic
import Mathlib.Logic.Relation
import EbnfKit.Check.References

/-! # Reachability — what the first rule needs

    A rule is needed if some chain of uses leads to its name from the first rule:

      a needs b   iff   the definition of a uses b, and b is defined

    Saturation finds exactly these names.  Each round that finds anything finds the name of
    a rule that was unknown, so as many rounds as there are rules are enough. -/

namespace EbnfKit

/-- Nothing is lost where elements are listed once each. -/
theorem mem_distinct {α : Type} [DecidableEq α] {as : List α} {a : α} :
    a ∈ distinctBy id as ↔ a ∈ as := by
  induction as with
  | nil => rfl
  | cons b bs ih =>
      rw [distinctBy, List.mem_cons, List.mem_cons, List.mem_filter, ih]
      by_cases h : a = b
      · simp [h]
      · simp [h]

theorem distinct_nodup {α : Type} [DecidableEq α] (as : List α) : (distinctBy id as).Nodup := by
  induction as with
  | nil => exact List.nodup_nil
  | cons a as ih =>
      rw [distinctBy, List.nodup_cons]
      exact ⟨fun h => by simpa using (List.mem_filter.mp h).2, ih.filter _⟩

/-- Elements that are listed once each come in the order in which they come first. -/
theorem distinct_first {α : Type} [DecidableEq α] (as : List α) :
    (distinctBy id as).Pairwise fun a b => ∃ front back, as = front ++ a :: back ∧ b ∉ front := by
  induction as with
  | nil => exact List.Pairwise.nil
  | cons c cs ih =>
      rw [distinctBy]
      refine List.Pairwise.cons (fun b _ => ⟨[], cs, rfl, List.not_mem_nil⟩) ?_
      refine (ih.filter _).imp_of_mem ?_
      rintro a b - hb ⟨front, back, rfl, hfront⟩
      have hne : b ≠ c := by simpa using (List.mem_filter.mp hb).2
      exact ⟨c :: front, back, rfl, List.not_mem_cons_of_ne_of_not_mem hne hfront⟩

theorem mem_distinctNames {names : List Text} {n : Text} : n ∈ distinctNames names ↔ n ∈ names :=
  mem_distinct

theorem distinctNames_nodup (names : List Text) : (distinctNames names).Nodup :=
  distinct_nodup names

theorem distinctBy_sublist {α κ : Type} [DecidableEq κ] (key : α → κ) (as : List α) :
    (distinctBy key as).Sublist as := by
  induction as with
  | nil => exact List.Sublist.refl _
  | cons a as ih => exact (List.filter_sublist.trans ih).cons_cons a

namespace Grammar

variable {g : Grammar}

/-- The definition of `a` uses `b`, which has a definition of its own. -/
def Needs (g : Grammar) (a b : Text) : Prop :=
  ∃ r, g.definition? a = some r ∧ b ∈ r.body.uses.map (·.1) ∧ g.isDefined b = true

/-- The first rule needs the name, in any number of steps. -/
def Reaches (g : Grammar) (name : Text) : Prop :=
  ∃ r, g.firstRule? = some r ∧ Relation.ReflTransGen g.Needs r.name name

theorem exists_rule_of_isDefined {name : Text} (h : g.isDefined name = true) :
    ∃ r ∈ g.rules, r.name = name := by
  obtain ⟨r, hr⟩ := Option.isSome_iff_exists.mp h
  refine ⟨r, List.mem_of_find?_eq_some hr, ?_⟩
  simpa using List.find?_some hr

end Grammar

namespace Check

variable {g : Grammar}

theorem mem_neededBy {a b : Text} : b ∈ neededBy g a ↔ g.Needs a b := by
  rw [neededBy, Grammar.Needs]
  cases hdef : g.definition? a with
  | none => simp
  | some r => simp only [List.mem_filter, Rule.dependencies, mem_distinctNames,
      Option.some.injEq, exists_eq_left']

theorem mem_frontier {known fresh : List Text} {b : Text} :
    b ∈ frontier g known fresh ↔ (∃ a ∈ fresh, g.Needs a b) ∧ b ∉ known := by
  rw [frontier, List.mem_filter, mem_distinctNames, List.mem_flatMap]
  simp only [mem_neededBy, Bool.not_eq_true', List.contains_eq_mem, decide_eq_false_iff_not]

/-- Saturation finds nothing that is not needed. -/
theorem saturate_sound {start : Text} (n : Nat) :
    ∀ {known fresh : List Text}, (∀ a ∈ fresh, a ∈ known) →
      (∀ a ∈ known, Relation.ReflTransGen g.Needs start a) →
      ∀ a ∈ saturate g n known fresh, Relation.ReflTransGen g.Needs start a := by
  induction n with
  | zero => exact fun _ hknown => hknown
  | succ n ih =>
      intro known fresh hfresh hknown
      rw [saturate]
      cases hfrontier : frontier g known fresh with
      | nil => exact hknown
      | cons name names =>
          have hnew : ∀ b ∈ name :: names, Relation.ReflTransGen g.Needs start b := by
            intro b hb
            rw [← hfrontier] at hb
            obtain ⟨⟨a, ha, hab⟩, -⟩ := mem_frontier.mp hb
            exact (hknown a (hfresh a ha)).tail hab
          exact ih (fun a ha => List.mem_append_right known ha)
            (List.forall_mem_append.mpr ⟨hknown, hnew⟩)

/-- How many rules have a name that is not known. -/
def unknown (g : Grammar) (known : List Text) : Nat :=
  (g.rules.filter fun r => !known.contains r.name).length

/-- A new name makes fewer rules unknown. -/
theorem unknown_lt {known news : List Text} {r : Rule Span} (hr : r ∈ g.rules)
    (hnew : r.name ∈ news) (hold : r.name ∉ known) :
    unknown g (known ++ news) < unknown g known := by
  have hsub : (g.rules.filter fun r => !(known ++ news).contains r.name).Sublist
      (g.rules.filter fun r => !known.contains r.name) := by
    refine List.monotone_filter_right _ fun q hq => ?_
    simp only [List.contains_append, Bool.not_or, Bool.and_eq_true] at hq
    exact hq.1
  -- as many as before would be the same as before, and `r` is among those
  refine Nat.lt_of_le_of_ne hsub.length_le fun hlen => ?_
  have heq := hsub.eq_of_length hlen
  have hmem : r ∈ g.rules.filter fun r => !known.contains r.name := by
    simpa using ⟨hr, hold⟩
  rw [← heq] at hmem
  simp [hnew] at hmem

/-- Saturation goes on until all is found that is needed. -/
theorem saturate_closed (n : Nat) :
    ∀ {known fresh : List Text}, (∀ a ∈ known, a ∈ fresh ∨ ∀ b, g.Needs a b → b ∈ known) →
      unknown g known ≤ n → (∀ a ∈ known, a ∈ saturate g n known fresh) ∧
        ∀ a ∈ saturate g n known fresh, ∀ b, g.Needs a b → b ∈ saturate g n known fresh := by
  induction n with
  | zero =>
      intro known fresh _ hunknown
      refine ⟨fun _ ha => ha, fun a _ b hab => ?_⟩
      -- no rule is unknown, and what is needed has a rule
      obtain ⟨-, -, -, hdefined⟩ := hab
      obtain ⟨r, hr, rfl⟩ := Grammar.exists_rule_of_isDefined hdefined
      by_contra hold
      have hmem : r ∈ g.rules.filter fun r => !known.contains r.name := by
        simpa using ⟨hr, fun h => hold h⟩
      have := List.length_pos_of_mem hmem
      rw [unknown] at hunknown
      omega
  | succ n ih =>
      intro known fresh hdone hunknown
      have hfound : ∀ a ∈ known, ∀ b, g.Needs a b → b ∈ known ∨ b ∈ frontier g known fresh := by
        intro a ha b hab
        by_cases hb : b ∈ known
        · exact Or.inl hb
        · rcases hdone a ha with hfresh | hclosed
          · exact Or.inr (mem_frontier.mpr ⟨⟨a, hfresh, hab⟩, hb⟩)
          · exact Or.inl (hclosed b hab)
      rw [saturate]
      cases hfrontier : frontier g known fresh with
      | nil =>
          -- nothing new was found, so what is known is closed already
          refine ⟨fun _ ha => ha, fun a ha b hab => ?_⟩
          rcases hfound a ha b hab with hb | hb
          · exact hb
          · rw [hfrontier] at hb
            cases hb
      | cons name names =>
          -- the first name found is that of a rule that was unknown until now
          have hname : name ∈ frontier g known fresh := by
            rw [hfrontier]
            exact List.mem_cons_self
          obtain ⟨⟨a, -, hab⟩, hold⟩ := mem_frontier.mp hname
          obtain ⟨-, -, -, hdefined⟩ := hab
          obtain ⟨r, hr, rfl⟩ := Grammar.exists_rule_of_isDefined hdefined
          have hless := @unknown_lt g known (r.name :: names) r hr List.mem_cons_self hold
          obtain ⟨hkept, hclosed⟩ := @ih (known ++ r.name :: names) (r.name :: names) (by
            intro a ha
            rcases List.mem_append.mp ha with ha | ha
            · refine Or.inr fun b hab => ?_
              rw [List.mem_append, ← hfrontier]
              exact hfound a ha b hab
            · exact Or.inl ha) (by omega)
          exact ⟨fun a ha => hkept a (List.mem_append_left _ ha), hclosed⟩

/-- **Saturation finds exactly the names that are needed.** -/
theorem mem_reachable_iff {start : Rule Span} {name : Text} :
    name ∈ reachable g start ↔ Relation.ReflTransGen g.Needs start.name name := by
  obtain ⟨hkept, hclosed⟩ := @saturate_closed g g.rules.length [start.name] [start.name]
    (fun a ha => Or.inl ha) (List.length_filter_le _ _)
  constructor
  · refine saturate_sound _ (fun _ ha => ha) ?_ name
    exact List.forall_mem_singleton.mpr .refl
  · intro h
    induction h with
    | refl => exact hkept _ (List.mem_singleton_self _)
    | tail _ hab ih => exact hclosed _ ih _ hab

/-- The names that the first rule needs are those that are looked up for it. -/
theorem reaches_iff {start : Rule Span} (h : g.firstRule? = some start) {name : Text} :
    g.Reaches name ↔ name ∈ reachable g start := by
  rw [mem_reachable_iff, Grammar.Reaches, h]
  simp

end Check

instance (g : Grammar) : DecidablePred g.Reaches := fun name =>
  match h : g.firstRule? with
  | none => isFalse fun hreaches => by
      obtain ⟨r, hr, -⟩ := hreaches
      rw [h] at hr
      cases hr
  | some _ => decidable_of_iff _ (Check.reaches_iff h).symm

end EbnfKit
