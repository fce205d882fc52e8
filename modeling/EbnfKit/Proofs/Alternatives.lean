import EbnfKit.Proofs.Canonical
import EbnfKit.Proofs.Resolution

/-! # Alternatives — those of one expression that start alike

    Two alternatives start alike if their first primaries refer to one name, have one text
    between their quotes, or are brackets of one kind around expressions of one shape.  That is
    stated here without the canonical texts that brackets are compared by:

      lead t = lead u   iff   t starts as u does       for terms that were read

    An expression is reported exactly if two of its alternatives start alike, once, with the
    classes of at least two alternatives that start alike.  A class comes with all its numbers
    in ascending order and the words for what it starts with, and the classes come in the order
    of their smallest numbers:

      ambiguous prefix: alternatives 1, 3 all start with rule `a`; alternatives 2, 4 … -/

namespace EbnfKit

/-- Where no two elements have one key, an element is all that has its key. -/
theorem filter_of_pairwise {α κ : Type} [DecidableEq κ] {key : α → κ} {as : List α}
    (h : as.Pairwise fun a b => key a ≠ key b) {a : α} (ha : a ∈ as) :
    as.filter (fun b => key b = key a) = [a] := by
  obtain ⟨front, back, rfl⟩ := List.append_of_mem ha
  obtain ⟨-, hback, hfront⟩ := List.pairwise_append.mp h
  have hbefore : front.filter (fun b => key b = key a) = [] :=
    List.filter_eq_nil_iff.mpr fun b hb =>
      mt of_decide_eq_true (hfront b hb a List.mem_cons_self)
  have hbehind : back.filter (fun b => key b = key a) = [] :=
    List.filter_eq_nil_iff.mpr fun b hb heq =>
      (List.pairwise_cons.mp hback).1 b hb (of_decide_eq_true heq).symm
  have hown : (a :: back).filter (fun b => key b = key a) = a :: back.filter fun b => key b = key a :=
    List.filter_cons_of_pos (decide_eq_true rfl)
  rw [List.filter_append, hbefore, hown, hbehind, List.nil_append]

/-! ## Starting alike -/

/-- The primaries refer to one name, have one text whatever their quotes, or are brackets of one
    kind around expressions of one shape. -/
inductive Primary.Alike {α : Type} : Primary α → Primary α → Prop
  | reference {m m' n} : Primary.Alike (.reference m n) (.reference m' n)
  | literal {m m' s q q'} : Primary.Alike (.literal m s q) (.literal m' s q')
  | bracketed {m m' b e e'} : e.shape = e'.shape →
      Primary.Alike (.bracketed m b e) (.bracketed m' b e')

/-- The first primaries of the terms are alike; counts and exceptions do not matter. -/
def Term.StartsAs {α : Type} (t u : Term α) : Prop :=
  t.first.primary.Alike u.first.primary

namespace Grammar

variable {s : Text}

/-- Nodes of one sort that are printed alike have one shape. -/
theorem shape_eq_of_render {n n' : Node Span} (hn : n ∈ (parse s).nodes)
    (hn' : n' ∈ (parse s).nodes) (hrank : n.rank = n'.rank) (h : n.render = n'.render) :
    n.shape = n'.shape := by
  refine Node.shape_eq_of_asBody hrank ?_
  refine Expression.shape_eq_of_render (node_whole hn) (node_whole hn') ?_
  rw [n.render_asBody, n'.render_asBody, h]

/-- Leads are equal exactly where primaries that were read are alike. -/
theorem ofPrimary_eq_iff {p p' : Primary Span} (hp : .primary p ∈ (parse s).nodes)
    (hp' : .primary p' ∈ (parse s).nodes) : Lead.ofPrimary p = Lead.ofPrimary p' ↔ p.Alike p' := by
  constructor
  · intro h
    cases p with
    | reference m n =>
        cases p' with
        | reference m' n' =>
            obtain rfl : n = n' := Lead.rule.inj h
            exact .reference
        | literal => cases h
        | bracketed => cases h
    | literal m text q =>
        cases p' with
        | reference => cases h
        | literal m' text' q' =>
            obtain rfl : text = text' := Lead.terminal.inj h
            exact .literal
        | bracketed => cases h
    | bracketed m b e =>
        cases p' with
        | reference => cases h
        | literal => cases h
        | bracketed m' b' e' =>
            have hshape := shape_eq_of_render hp hp' rfl (Lead.bracketed.inj h)
            obtain ⟨-, rfl, he⟩ := Primary.bracketed.inj (Node.primary.inj hshape)
            exact .bracketed he
  · intro h
    cases h with
    | reference => rfl
    | literal => rfl
    | @bracketed m m' b e e' he =>
        have hshape : (Node.primary (.bracketed m b e)).shape
            = (Node.primary (.bracketed m' b e')).shape :=
          congrArg (fun e => Node.primary (Primary.bracketed () b e)) he
        have hrender := congrArg Node.render hshape
        rw [Node.render_shape, Node.render_shape] at hrender
        exact congrArg Lead.bracketed hrender

/-- What an alternative starts with was read if the expression was. -/
theorem first_mem_nodes {e : Expression Span} (he : .expression e ∈ (parse s).nodes)
    {t : Term Span} (ht : t ∈ e.alternatives) : .primary t.first.primary ∈ (parse s).nodes := by
  have hterm : .term t ∈ (parse s).nodes := mem_nodes_of_child he (List.mem_map_of_mem ht)
  have hfactor : .factor t.first ∈ (parse s).nodes := by
    refine mem_nodes_of_child hterm (List.mem_map_of_mem ?_)
    obtain ⟨m, f, fs⟩ := t
    exact List.mem_cons_self
  refine mem_nodes_of_child hfactor (List.mem_map_of_mem ?_)
  obtain ⟨m, n, p, x⟩ := t.first
  exact List.mem_cons_self

theorem ofTerm_eq_iff {e : Expression Span} (he : .expression e ∈ (parse s).nodes)
    {t u : Term Span} (ht : t ∈ e.alternatives) (hu : u ∈ e.alternatives) :
    Lead.ofTerm t = Lead.ofTerm u ↔ t.StartsAs u :=
  ofPrimary_eq_iff (first_mem_nodes he ht) (first_mem_nodes he hu)

end Grammar

/-! ## Classes -/

/-- The alternative with the number, counted from one. -/
def Expression.Numbered (e : Expression Span) (i : Nat) (t : Term Span) : Prop :=
  ∃ k, e.alternatives[k]? = some t ∧ i = k + 1

/-- Two different alternatives start alike. -/
def Expression.Ambiguous (e : Expression Span) : Prop :=
  ∃ i j t u, i ≠ j ∧ e.Numbered i t ∧ e.Numbered j u ∧ t.StartsAs u

/-- The words of a report for what an alternative starts with. -/
def Primary.words {α : Type} : Primary α → String
  | .reference _ n => "rule `" ++ String.ofList n ++ "`"
  | .literal _ s _ => "terminal \"" ++ String.ofList s ++ "\""
  | .bracketed m b e => "`" ++ String.ofList (Primary.bracketed m b e).render ++ "`"

/-- The classes of alternatives that start alike, each with the words for what they start with and
    with their numbers. -/
structure Expression.Classes (e : Expression Span) (classes : List (String × List Nat)) : Prop where
  several : ∀ c ∈ classes, 2 ≤ c.2.length
  ascending : ∀ c ∈ classes, c.2.Pairwise (· < ·)
  /-- A class is all that starts as one of its members does. -/
  alike : ∀ c ∈ classes, ∃ i t, e.Numbered i t ∧ c.1 = t.first.primary.words ∧
    ∀ j, j ∈ c.2 ↔ ∃ u, e.Numbered j u ∧ t.StartsAs u
  complete : ∀ i j t u, i ≠ j → e.Numbered i t → e.Numbered j u → t.StartsAs u →
    ∃ c ∈ classes, i ∈ c.2 ∧ j ∈ c.2
  apart : classes.Pairwise fun c d => ∀ i ∈ c.2, i ∉ d.2
  /-- A class comes before those whose numbers are all larger than one of its own. -/
  ordered : classes.Pairwise fun c d => ∃ i ∈ c.2, ∀ j ∈ d.2, i < j

theorem Lead.describe_ofTerm {α : Type} (t : Term α) :
    (ofTerm t).describe = t.first.primary.words := by
  obtain ⟨m, ⟨m', n, p, x⟩, fs⟩ := t
  cases p <;> rfl

namespace Check

theorem mem_startingWith {leads : List Lead} {lead : Lead} {i : Nat} :
    i ∈ startingWith leads lead ↔ ∃ k, leads[k]? = some lead ∧ i = k + 1 := by
  rw [startingWith, List.mem_filterMap]
  constructor
  · rintro ⟨⟨lead', n⟩, hmem, hsome⟩
    rw [List.mk_mem_zipIdx_iff_le_and_getElem?_sub] at hmem
    dsimp only at hsome
    split at hsome
    · rename_i heq
      rw [heq, Option.some.inj hsome] at hmem
      exact ⟨i - 1, hmem.2, (Nat.sub_add_cancel hmem.1).symm⟩
    · cases hsome
  · rintro ⟨k, hk, rfl⟩
    refine ⟨(lead, k + 1), ?_, if_pos rfl⟩
    exact List.mk_mem_zipIdx_iff_le_and_getElem?_sub.mpr ⟨Nat.le_add_left 1 k, hk⟩

theorem startingWith_ascending (leads : List Lead) (lead : Lead) :
    (startingWith leads lead).Pairwise (· < ·) := by
  have hnumbers : (leads.zipIdx 1).Pairwise fun a b => a.2 < b.2 := by
    rw [← @List.pairwise_map _ _ Prod.snd, List.zipIdx_map_snd]
    exact List.pairwise_lt_range'
  refine List.pairwise_filterMap.mpr (hnumbers.imp ?_)
  intro a b hlt i hi j hj
  split at hi
  · split at hj
    · rw [← Option.some.inj hi, ← Option.some.inj hj]
      exact hlt
    · cases hj
  · cases hi

/-- Numbers in ascending order are several if there are two of them. -/
theorem several_iff {is : List Nat} (h : is.Pairwise (· < ·)) :
    1 < is.length ↔ ∃ i ∈ is, ∃ j ∈ is, i ≠ j := by
  match is, h with
  | [], _ => exact ⟨fun hlt => absurd hlt (Nat.not_lt_zero 1), fun ⟨i, hi, _⟩ => absurd hi List.not_mem_nil⟩
  | [a], _ =>
      refine ⟨fun hlt => absurd hlt (Nat.lt_irrefl 1), ?_⟩
      rintro ⟨i, hi, j, hj, hne⟩
      exact absurd ((List.mem_singleton.mp hi).trans (List.mem_singleton.mp hj).symm) hne
  | a :: b :: is, h =>
      have hlt := (List.pairwise_cons.mp h).1 b List.mem_cons_self
      refine ⟨fun _ => ?_, fun _ => Nat.succ_lt_succ (Nat.succ_pos _)⟩
      exact ⟨a, List.mem_cons_self, b, List.mem_cons_of_mem a List.mem_cons_self, Nat.ne_of_lt hlt⟩

theorem mem_sharedLeads {leads : List Lead} {c : Lead × List Nat} : c ∈ sharedLeads leads ↔
    c.1 ∈ leads ∧ c.2 = startingWith leads c.1 ∧ 1 < c.2.length := by
  rw [sharedLeads, List.mem_filter, List.mem_map, decide_eq_true_iff]
  constructor
  · rintro ⟨⟨lead, hlead, rfl⟩, hlt⟩
    exact ⟨mem_distinct.mp hlead, rfl, hlt⟩
  · rintro ⟨hlead, heq, hlt⟩
    exact ⟨⟨c.1, mem_distinct.mpr hlead, by rw [← heq]⟩, hlt⟩

/-- A lead that comes first earlier has a number that is smaller than those of the other. -/
theorem sharedLeads_ordered (leads : List Lead) :
    (sharedLeads leads).Pairwise fun c d => ∃ i ∈ c.2, ∀ j ∈ d.2, i < j := by
  refine (List.pairwise_map.mpr ?_).filter _
  refine ((distinct_first leads).and (distinct_nodup leads)).imp ?_
  rintro a b ⟨⟨front, back, heq, hfront⟩, hne⟩
  refine ⟨front.length + 1, mem_startingWith.mpr ⟨front.length, ?_, rfl⟩, ?_⟩
  · rw [heq, List.getElem?_append_right (Nat.le_refl _), Nat.sub_self]
    rfl
  · intro j hj
    obtain ⟨k, hk, rfl⟩ := mem_startingWith.mp hj
    rw [heq] at hk
    refine Nat.succ_lt_succ (Nat.lt_of_not_le fun hle => ?_)
    rcases Nat.lt_or_eq_of_le hle with hlt | rfl
    · rw [List.getElem?_append_left hlt] at hk
      exact hfront (List.mem_of_getElem? hk)
    · rw [List.getElem?_append_right (Nat.le_refl _), Nat.sub_self] at hk
      exact hne (Option.some.inj hk)

theorem sharedLeads_apart (leads : List Lead) :
    (sharedLeads leads).Pairwise fun c d => ∀ i ∈ c.2, i ∉ d.2 := by
  refine (List.pairwise_map.mpr ((distinct_nodup leads).imp fun {a b} hne i hi hj => hne ?_)).filter _
  obtain ⟨k, hk, rfl⟩ := mem_startingWith.mp hi
  obtain ⟨k', hk', heq⟩ := mem_startingWith.mp hj
  rw [← Nat.succ.inj heq, hk] at hk'
  exact Option.some.inj hk'

end Check

namespace Grammar

variable {s : Text}

section Expression

variable {e : Expression Span}

/-- The numbers for a lead are those of the alternatives that have it. -/
theorem mem_startingWith_ofTerm {lead : Lead} {i : Nat} :
    i ∈ Check.startingWith (e.alternatives.map Lead.ofTerm) lead ↔
      ∃ t, e.Numbered i t ∧ Lead.ofTerm t = lead := by
  rw [Check.mem_startingWith]
  constructor
  · rintro ⟨k, hk, rfl⟩
    rw [List.getElem?_map, Option.map_eq_some_iff] at hk
    obtain ⟨t, ht, rfl⟩ := hk
    exact ⟨t, ⟨k, ht, rfl⟩, rfl⟩
  · rintro ⟨t, ⟨k, ht, rfl⟩, rfl⟩
    exact ⟨k, by rw [List.getElem?_map, ht]; rfl, rfl⟩

variable (he : .expression e ∈ (parse s).nodes)

include he

theorem ofTerm_eq_iff_of_numbered {i j : Nat} {t u : Term Span} (ht : e.Numbered i t)
    (hu : e.Numbered j u) : Lead.ofTerm t = Lead.ofTerm u ↔ t.StartsAs u := by
  obtain ⟨k, ht, -⟩ := ht
  obtain ⟨l, hu, -⟩ := hu
  exact ofTerm_eq_iff he (List.mem_of_getElem? ht) (List.mem_of_getElem? hu)

/-- A shared lead is that of some alternative, with the numbers of those that start as it does. -/
theorem exists_numbered_of_shared {c : Lead × List Nat}
    (hc : c ∈ Check.sharedLeads (e.alternatives.map Lead.ofTerm)) :
    ∃ i t, e.Numbered i t ∧ c.1 = Lead.ofTerm t ∧
      ∀ j, j ∈ c.2 ↔ ∃ u, e.Numbered j u ∧ t.StartsAs u := by
  obtain ⟨hlead, hnumbers, -⟩ := Check.mem_sharedLeads.mp hc
  obtain ⟨t, ht, heq⟩ := List.mem_map.mp hlead
  obtain ⟨k, hk⟩ := List.mem_iff_getElem?.mp ht
  have hnumbered : e.Numbered (k + 1) t := ⟨k, hk, rfl⟩
  refine ⟨k + 1, t, hnumbered, heq.symm, fun j => ?_⟩
  rw [hnumbers, mem_startingWith_ofTerm]
  refine exists_congr fun u => and_congr_right fun hu => ?_
  rw [← ofTerm_eq_iff_of_numbered he hnumbered hu, heq, eq_comm]

/-- Two alternatives that start alike share a lead. -/
theorem exists_shared_of_numbered {i j : Nat} {t u : Term Span} (hne : i ≠ j)
    (ht : e.Numbered i t) (hu : e.Numbered j u) (halike : t.StartsAs u) :
    ∃ c ∈ Check.sharedLeads (e.alternatives.map Lead.ofTerm), i ∈ c.2 ∧ j ∈ c.2 := by
  have heq := (ofTerm_eq_iff_of_numbered he ht hu).mpr halike
  have hi := mem_startingWith_ofTerm.mpr ⟨t, ht, rfl⟩
  have hj := mem_startingWith_ofTerm.mpr ⟨u, hu, heq.symm⟩
  refine ⟨(Lead.ofTerm t, Check.startingWith _ (Lead.ofTerm t)), ?_, hi, hj⟩
  obtain ⟨k, hk, -⟩ := ht
  refine Check.mem_sharedLeads.mpr ⟨List.mem_map_of_mem (List.mem_of_getElem? hk), rfl, ?_⟩
  exact (Check.several_iff (Check.startingWith_ascending _ _)).mpr ⟨i, hi, j, hj, hne⟩

/-- **The leads that several alternatives share are the classes** of those that start alike. -/
theorem classes_sharedLeads : e.Classes
    ((Check.sharedLeads (e.alternatives.map Lead.ofTerm)).map fun c => (c.1.describe, c.2)) where
  several := List.forall_mem_map.mpr fun _ hc => (Check.mem_sharedLeads.mp hc).2.2
  ascending := List.forall_mem_map.mpr fun c hc => by
    rw [(Check.mem_sharedLeads.mp hc).2.1]
    exact Check.startingWith_ascending _ _
  alike := List.forall_mem_map.mpr fun c hc => by
    obtain ⟨i, t, hnumbered, hlead, hnumbers⟩ := exists_numbered_of_shared he hc
    exact ⟨i, t, hnumbered, by rw [hlead, Lead.describe_ofTerm], hnumbers⟩
  complete i j t u hne ht hu halike := by
    obtain ⟨c, hc, hi, hj⟩ := exists_shared_of_numbered he hne ht hu halike
    exact ⟨_, List.mem_map_of_mem hc, hi, hj⟩
  apart := List.pairwise_map.mpr (Check.sharedLeads_apart _)
  ordered := List.pairwise_map.mpr (Check.sharedLeads_ordered _)

theorem sharedLeads_ne_nil_iff :
    Check.sharedLeads (e.alternatives.map Lead.ofTerm) ≠ [] ↔ e.Ambiguous := by
  constructor
  · intro hne
    obtain ⟨c, hc⟩ := List.exists_mem_of_ne_nil _ hne
    obtain ⟨-, hnumbers, hseveral⟩ := Check.mem_sharedLeads.mp hc
    rw [hnumbers, Check.several_iff (Check.startingWith_ascending _ _)] at hseveral
    obtain ⟨i, hi, j, hj, hne⟩ := hseveral
    obtain ⟨t, ht, hlead⟩ := mem_startingWith_ofTerm.mp hi
    obtain ⟨u, hu, hlead'⟩ := mem_startingWith_ofTerm.mp hj
    have halike := (ofTerm_eq_iff_of_numbered he ht hu).mp (hlead.trans hlead'.symm)
    exact ⟨i, j, t, u, hne, ht, hu, halike⟩
  · rintro ⟨i, j, t, u, hne, ht, hu, halike⟩
    obtain ⟨c, hc, -⟩ := exists_shared_of_numbered he hne ht hu halike
    exact List.ne_nil_of_mem hc

/-- An expression is warned of exactly if it is ambiguous. -/
theorem ambiguousExpression?_eq_some_iff {d : Diagnostic} :
    Check.ambiguousExpression? e = some d ↔ e.Ambiguous ∧ d = ⟨.ambiguousPrefix, e.mark,
      "ambiguous prefix: " ++ String.intercalate "; "
        ((Check.sharedLeads (e.alternatives.map Lead.ofTerm)).map Check.describeShared)⟩ := by
  rw [← sharedLeads_ne_nil_iff he, Check.ambiguousExpression?]
  cases Check.sharedLeads (e.alternatives.map Lead.ofTerm) with
  | nil =>
      refine ⟨fun h => ?_, fun h => absurd rfl h.1⟩
      cases h
  | cons c cs =>
      refine ⟨fun h => ⟨List.cons_ne_nil c cs, (Option.some.inj h).symm⟩, fun h => ?_⟩
      rw [h.2]

end Expression

theorem mem_ambiguousExpressions {g : Grammar} {d : Diagnostic} :
    d ∈ Check.ambiguousExpressions g ↔
      ∃ e, .expression e ∈ g.nodes ∧ Check.ambiguousExpression? e = some d := by
  rw [Check.ambiguousExpressions, List.mem_filterMap]
  refine exists_congr fun e => and_congr_left fun _ => ?_
  rw [List.mem_filterMap]
  constructor
  · rintro ⟨n, hn, hsort⟩
    cases n <;> cases hsort
    exact hn
  · exact fun he => ⟨_, he, rfl⟩

/-- **The check for alternatives that start alike is exact.**  Every expression, at any depth and
    in exceptions too, is reported once if two of its alternatives start alike, with the numbers of
    all classes of these, and else not at all; nothing else is reported. -/
theorem ambiguousExpressions_exact (s : Text) :
    (∀ e, (parse s).Holds (.expression e) →
      (e.Ambiguous → ∃ classes, e.Classes classes ∧
        (Check.ambiguousExpressions (parse s)).filter (·.span = e.mark)
          = [⟨.ambiguousPrefix, e.mark, "ambiguous prefix: "
              ++ String.intercalate "; " (classes.map fun c => "alternatives "
                ++ String.intercalate ", " (c.2.map toString) ++ " all start with " ++ c.1)⟩]) ∧
      (¬e.Ambiguous →
        (Check.ambiguousExpressions (parse s)).filter (·.span = e.mark) = [])) ∧
    ∀ d ∈ Check.ambiguousExpressions (parse s),
      ∃ e, (parse s).Holds (.expression e) ∧ e.Ambiguous ∧ d.span = e.mark := by
  have hfound : ∀ d ∈ Check.ambiguousExpressions (parse s),
      ∃ e, .expression e ∈ (parse s).nodes ∧ e.Ambiguous ∧ d.span = e.mark := by
    intro d hd
    obtain ⟨e, he, hsome⟩ := mem_ambiguousExpressions.mp hd
    obtain ⟨hambiguous, rfl⟩ := (ambiguousExpression?_eq_some_iff he).mp hsome
    exact ⟨e, he, hambiguous, rfl⟩
  refine ⟨fun e he => ?_, fun d hd => ?_⟩
  · rw [← mem_nodes_iff_holds] at he
    refine ⟨fun hambiguous => ⟨_, classes_sharedLeads he, ?_⟩, fun hnot => ?_⟩
    · have hmem := mem_ambiguousExpressions.mpr
        ⟨e, he, (ambiguousExpression?_eq_some_iff he).mpr ⟨hambiguous, rfl⟩⟩
      rw [List.map_map]
      exact filter_of_pairwise (ambiguousExpressions_pairwise s) hmem
    · refine List.filter_eq_nil_iff.mpr fun d hd hspan => hnot ?_
      obtain ⟨e', he', hambiguous, hmark⟩ := hfound d hd
      have hsame := node_of_mark he he' rfl ((of_decide_eq_true hspan).symm.trans hmark)
      exact Node.expression.inj hsame ▸ hambiguous
  · obtain ⟨e, he, hambiguous, hspan⟩ := hfound d hd
    exact ⟨e, mem_nodes_iff_holds.mp he, hambiguous, hspan⟩

/-- Two classes in an exception: strings in quotes of both kinds, and brackets with a count and an
    exception and without.  Nothing starts alike inside the brackets. -/
theorem ambiguousExpressions_excepted : ∃ (s : Text) (e e' : Expression Span),
    s = "a = x - ( 'p', q | [ 'r' | s ] | \"p\" | 2 * ['r'|s] - t | w ) ;".toList ∧
    (parse s).Holds (.expression e) ∧ e.mark = ⟨10, 58⟩ ∧ e.Ambiguous ∧
    (∃ classes, e.Classes classes ∧
      (Check.ambiguousExpressions (parse s)).filter (·.span = e.mark)
        = [⟨.ambiguousPrefix, e.mark, "ambiguous prefix: "
            ++ String.intercalate "; " (classes.map fun c => "alternatives "
              ++ String.intercalate ", " (c.2.map toString) ++ " all start with " ++ c.1)⟩]) ∧
    (Check.ambiguousExpressions (parse s)).map Diagnostic.message
      = ["ambiguous prefix: alternatives 1, 3 all start with terminal \"p\"; "
          ++ "alternatives 2, 4 all start with `[ 'r' | s ]`"] ∧
    (parse s).Holds (.expression e') ∧ e'.mark = ⟨21, 28⟩ ∧ ¬e'.Ambiguous ∧
    (Check.ambiguousExpressions (parse s)).filter (·.span = e'.mark) = [] := by
  have hreport : Check.ambiguousExpressions
      (parse "a = x - ( 'p', q | [ 'r' | s ] | \"p\" | 2 * ['r'|s] - t | w ) ;".toList)
      = [⟨.ambiguousPrefix, ⟨10, 58⟩,
          "ambiguous prefix: alternatives 1, 3 all start with terminal \"p\"; "
            ++ "alternatives 2, 4 all start with `[ 'r' | s ]`"⟩] := by
    decide +kernel
  have hinner : ((0, ⟨21, 28⟩) : Nat × Span) ∈
      (parse "a = x - ( 'p', q | [ 'r' | s ] | \"p\" | 2 * ['r'|s] - t | w ) ;".toList).nodes.map
        fun n => (n.rank, n.mark) := by
    decide +kernel
  obtain ⟨hall, hfound⟩ := ambiguousExpressions_exact
    "a = x - ( 'p', q | [ 'r' | s ] | \"p\" | 2 * ['r'|s] - t | w ) ;".toList
  obtain ⟨e, he, hambiguous, hmark⟩ := hfound _ (hreport ▸ List.mem_singleton_self _)
  obtain ⟨n, hn, hrank⟩ := List.mem_map.mp hinner
  have hplain : ∃ e', n = .expression e' := by
    cases n with
    | expression e' => exact ⟨e', rfl⟩
    | _ => cases hrank
  obtain ⟨e', rfl⟩ := hplain
  have hmark' : e'.mark = ⟨21, 28⟩ := (Prod.mk.inj hrank).2
  have he' := mem_nodes_iff_holds.mp hn
  have hnone : ¬e'.Ambiguous := by
    intro hambiguous'
    obtain ⟨classes, -, hfilter⟩ := (hall e' he').1 hambiguous'
    rw [hreport, hmark'] at hfilter
    cases hfilter
  exact ⟨_, e, e', rfl, he, hmark.symm, hambiguous, (hall e he).1 hambiguous, by rw [hreport]; rfl,
    he', hmark', hnone, (hall e' he').2 hnone⟩

end Grammar

end EbnfKit
