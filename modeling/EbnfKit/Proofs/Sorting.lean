import Mathlib.Data.List.Forall2
import EbnfKit.Sorting

/-! # Sorting — the same elements, in order

    Sorting keeps the elements and puts them in order.  What is in order already stays as
    it is, and what the elements are does not matter beyond their order. -/

namespace EbnfKit

variable {α : Type} {le : α → α → Bool}

theorem insertSorted_perm (a : α) (as : List α) : (insertSorted le a as).Perm (a :: as) := by
  induction as with
  | nil => exact List.Perm.refl _
  | cons b bs ih =>
      rw [insertSorted]
      by_cases h : le a b = true
      · rw [if_pos h]
      · rw [if_neg h]
        exact (ih.cons b).trans (List.Perm.swap a b bs)

theorem stableSort_perm (as : List α) : (stableSort le as).Perm as := by
  induction as with
  | nil => exact List.Perm.refl _
  | cons a as ih => exact (insertSorted_perm a _).trans (ih.cons a)

theorem stableSort_eq_nil_iff {as : List α} : stableSort le as = [] ↔ as = [] := by
  have hlen := (@stableSort_perm _ le as).length_eq
  rw [← List.length_eq_zero_iff, hlen, List.length_eq_zero_iff]

/-- Inserting keeps the order, whatever relation tells it. -/
theorem insertSorted_pairwise {R : α → α → Prop} (htrans : ∀ a b c, R a b → R b c → R a c)
    (hle : ∀ a b, le a b = true → R a b) (hgt : ∀ a b, le a b = false → R b a) (a : α)
    {as : List α} (h : as.Pairwise R) : (insertSorted le a as).Pairwise R := by
  induction h with
  | nil => exact List.pairwise_singleton _ _
  | @cons b bs hb hbs ih =>
      rw [insertSorted]
      by_cases hab : le a b = true
      · rw [if_pos hab]
        refine List.Pairwise.cons (List.forall_mem_cons.mpr ⟨hle a b hab, ?_⟩) (.cons hb hbs)
        intro c hc
        exact htrans a b c (hle a b hab) (hb c hc)
      · rw [if_neg hab]
        refine List.Pairwise.cons ?_ ih
        intro c hc
        rcases List.mem_cons.mp ((insertSorted_perm a bs).mem_iff.mp hc) with rfl | hc
        · exact hgt c b (Bool.eq_false_iff.mpr hab)
        · exact hb c hc

theorem stableSort_pairwise {R : α → α → Prop} (htrans : ∀ a b c, R a b → R b c → R a c)
    (hle : ∀ a b, le a b = true → R a b) (hgt : ∀ a b, le a b = false → R b a) (as : List α) :
    (stableSort le as).Pairwise R := by
  induction as with
  | nil => exact List.Pairwise.nil
  | cons a as ih => exact insertSorted_pairwise htrans hle hgt a ih

theorem insertSorted_eq_cons {a : α} {as : List α} (h : ∀ b ∈ as, le a b = true) :
    insertSorted le a as = a :: as := by
  cases as with
  | nil => rfl
  | cons b bs => rw [insertSorted, if_pos (h b List.mem_cons_self)]

theorem stableSort_eq_self {as : List α} (h : as.Pairwise fun a b => le a b = true) :
    stableSort le as = as := by
  induction h with
  | nil => rfl
  | @cons a as ha _ ih => rw [stableSort, ih, insertSorted_eq_cons ha]

section Filter

variable (htrans : ∀ a b c, le a b = true → le b c = true → le a c = true) (p : α → Bool)

include htrans

/-- Of a list in order, an element goes to the same place among those that are left. -/
theorem insertSorted_filter (a : α) {as : List α} (h : as.Pairwise fun a b => le a b = true) :
    (insertSorted le a as).filter p
      = if p a then insertSorted le a (as.filter p) else as.filter p := by
  induction h with
  | nil => rw [insertSorted, List.filter_cons, List.filter_nil]; rfl
  | @cons b bs hb _ ih =>
      by_cases hab : le a b = true
      · -- all the others come no sooner than `b`
        have hle : ∀ c ∈ b :: bs, le a c = true :=
          List.forall_mem_cons.mpr ⟨hab, fun c hc => htrans a b c hab (hb c hc)⟩
        have hleft : ∀ c ∈ (b :: bs).filter p, le a c = true :=
          fun c hc => hle c (List.mem_filter.mp hc).1
        rw [insertSorted_eq_cons hle, insertSorted_eq_cons hleft, List.filter_cons]
      · rw [insertSorted, if_neg hab, List.filter_cons, List.filter_cons, ih]
        by_cases hpb : p b = true
        · rw [if_pos hpb, if_pos hpb, insertSorted, if_neg hab]
          split <;> rfl
        · rw [if_neg hpb, if_neg hpb]

/-- **Leaving out elements before sorting or after it is the same.** -/
theorem stableSort_filter (htotal : ∀ a b, le a b = false → le b a = true) (as : List α) :
    (stableSort le as).filter p = stableSort le (as.filter p) := by
  induction as with
  | nil => rfl
  | cons a as ih =>
      rw [stableSort, insertSorted_filter htrans p a
        (stableSort_pairwise htrans (fun _ _ h => h) htotal as), ih, List.filter_cons]
      split <;> rfl

end Filter

/-- Elements that relate to others in the same order stay related when both are sorted. -/
theorem stableSort_forall₂ {β : Type} {R : α → β → Prop} {le' : β → β → Bool}
    (h : ∀ {a b a' b'}, R a a' → R b b' → le' a' b' = le a b) {as : List α} {bs : List β}
    (hR : List.Forall₂ R as bs) : List.Forall₂ R (stableSort le as) (stableSort le' bs) := by
  have hinsert : ∀ {a : α} {b : β} {as : List α} {bs : List β}, R a b → List.Forall₂ R as bs →
      List.Forall₂ R (insertSorted le a as) (insertSorted le' b bs) := by
    intro a b as bs hab hall
    induction hall with
    | nil => exact .cons hab .nil
    | cons hcd hrest ih =>
        rw [insertSorted, insertSorted, h hab hcd]
        split
        · exact .cons hab (.cons hcd hrest)
        · exact .cons hcd ih
  induction hR with
  | nil => exact .nil
  | cons hab _ ih => exact hinsert hab ih

/-- Elements that are replaced by others in the same order are sorted as before. -/
theorem stableSort_map {β : Type} {le' : β → β → Bool} {f : α → β}
    (h : ∀ a b, le' (f a) (f b) = le a b) (as : List α) :
    stableSort le' (as.map f) = (stableSort le as).map f := by
  have hall : List.Forall₂ (fun a b => f a = b) as (as.map f) :=
    List.forall₂_map_right_iff.mpr ((List.forall₂_same).mpr fun _ _ => rfl)
  have hsorted : List.Forall₂ (fun a b => f a = b) (stableSort le as) (stableSort le' (as.map f)) := by
    refine stableSort_forall₂ (fun ha hb => ?_) hall
    rw [← ha, ← hb, h]
  rw [← List.forall₂_map_left_iff, List.forall₂_eq_eq_eq] at hsorted
  exact hsorted.symm

end EbnfKit
