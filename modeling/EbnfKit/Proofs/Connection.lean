import EbnfKit.Proofs.Reachability
import EbnfKit.Proofs.Tiling

/-! # Connections — the names that the start rule leads to

    Reachability is stated here without the search for it.  A body mentions a name at any
    depth, in exceptions as well, and the first rule of a name defines it:

      a leads to b   iff   the definition of a mentions b, and b is defined

    A rule is reported if no path of such steps, the empty one included, connects the start
    rule to its name.  The reports are in source order, each at the name of its own rule;
    rules that share a name have different marks (`nameMark_apart`). -/

namespace EbnfKit

variable {α : Type}

/-! ## Mentions -/

/-- The primaries of a factor: what is repeated, and what is excluded. -/
def Factor.operands (f : Factor α) : List (Primary α) :=
  f.primary :: f.exception.toList

/-- The primary is the name, or has it somewhere in its brackets. -/
inductive Primary.Mentions (name : Text) : Primary α → Prop
  | reference {m} : Primary.Mentions name (.reference m name)
  | within {m b e t f p} : t ∈ e.alternatives → f ∈ t.factors → p ∈ f.operands →
      Primary.Mentions name p → Primary.Mentions name (.bracketed m b e)

/-- Some primary of the factor mentions the name. -/
def Factor.Mentions (name : Text) (f : Factor α) : Prop :=
  ∃ p ∈ f.operands, p.Mentions name

/-- Some factor of the term mentions the name. -/
def Term.Mentions (name : Text) (t : Term α) : Prop :=
  ∃ f ∈ t.factors, f.Mentions name

/-- Some alternative of the expression mentions the name. -/
def Expression.Mentions (name : Text) (e : Expression α) : Prop :=
  ∃ t ∈ e.alternatives, t.Mentions name

theorem Primary.mentions_bracketed {name : Text} {m : α} {b : Bracket} {e : Expression α} :
    (Primary.bracketed m b e).Mentions name ↔ e.Mentions name := by
  constructor
  · intro h
    cases h with
    | within ht hf hp h => exact ⟨_, ht, _, hf, _, hp, h⟩
  · rintro ⟨t, ht, f, hf, p, hp, h⟩
    exact .within ht hf hp h

theorem exists_exists_mem_iff {β γ κ : Type} [Membership β κ] {bs : κ} {p : γ → β → Prop}
    {q : β → Prop} (h : ∀ b ∈ bs, (∃ c, p c b) ↔ q b) :
    (∃ c, ∃ b ∈ bs, p c b) ↔ ∃ b ∈ bs, q b := by
  constructor
  · rintro ⟨c, b, hb, hc⟩
    exact ⟨b, hb, (h b hb).mp ⟨c, hc⟩⟩
  · rintro ⟨b, hb, hq⟩
    obtain ⟨c, hc⟩ := (h b hb).mpr hq
    exact ⟨c, b, hb, hc⟩

/-- A name is mentioned where a node of the tree is a reference to it. -/
theorem exists_reference_iff_mentions (name : Text) :
    Hereditary
      (fun e : Expression α => (∃ m, .primary (.reference m name) ∈ e.nodes) ↔ e.Mentions name)
      (fun t => (∃ m, .primary (.reference m name) ∈ t.nodes) ↔ t.Mentions name)
      (fun f => (∃ m, .primary (.reference m name) ∈ f.nodes) ↔ f.Mentions name)
      (fun p => (∃ m, .primary (.reference m name) ∈ p.nodes) ↔ p.Mentions name) where
  expression := by
    intro m t ts ih
    simp only [Expression.nodes_mk, List.mem_cons, reduceCtorEq, false_or, List.mem_flatMap]
    simp only [← List.mem_cons]
    exact exists_exists_mem_iff ih
  term := by
    intro m f fs ih
    simp only [Term.nodes_mk, List.mem_cons, reduceCtorEq, false_or, List.mem_flatMap]
    simp only [← List.mem_cons]
    exact exists_exists_mem_iff ih
  factor := by
    intro m n p x hp hx
    simp only [Factor.nodes_mk, List.mem_cons, reduceCtorEq, false_or, List.mem_append,
      List.mem_flatMap, Option.mem_toList, Factor.Mentions, Factor.operands, Factor.primary,
      Factor.exception, exists_eq_or_imp, exists_or, hp]
    exact or_congr_right (exists_exists_mem_iff hx)
  reference := by
    intro m n
    simp only [Primary.nodes, List.mem_singleton, Node.primary.injEq, Primary.reference.injEq]
    constructor
    · rintro ⟨_, -, rfl⟩
      exact .reference
    · intro h
      cases h
      exact ⟨m, rfl, rfl⟩
  literal := by
    intro m s q
    simp only [Primary.nodes, List.mem_singleton, Node.primary.injEq, reduceCtorEq, exists_false,
      false_iff]
    intro h
    cases h
  bracketed := by
    intro m b e ih
    rw [Primary.mentions_bracketed, ← ih, Primary.nodes]
    simp only [List.mem_cons, Node.primary.injEq, reduceCtorEq, false_or]

/-- The names that an expression uses are those it mentions. -/
theorem Expression.mem_uses_iff {e : Expression α} {name : Text} :
    name ∈ e.uses.map (·.1) ↔ e.Mentions name := by
  rw [← (exists_reference_iff_mentions name).expressions e]
  simp only [uses, List.mem_map, List.mem_filterMap]
  constructor
  · rintro ⟨use, ⟨node, hnode, huse⟩, rfl⟩
    rw [Node.use?_eq_some_iff.mp huse] at hnode
    exact ⟨_, hnode⟩
  · rintro ⟨m, hnode⟩
    exact ⟨_, ⟨_, hnode, rfl⟩, rfl⟩

/-! ## Where the names stand -/

/-- The first token of a rule is its name. -/
theorem Rule.Derives.exists_nameToken {ts : List Token} {r : Rule Span}
    (h : Rule.Derives .placed ts r) : ∃ t ∈ ts, r.nameMark = t.span ∧ r.name = t.text := by
  cases h with
  | mk _ _ _ _ hnm _ => exact ⟨_, List.mem_cons_self, hnm, rfl⟩

/-- Items are related as what stands over tokens in front is to what stands over those behind. -/
theorem Amid.pairwise {β : Type} {item : List Token → β → Prop} {related : β → β → Prop}
    (hitem : ∀ {us vs x y}, Scanned (us ++ vs) → item us x → item vs y → related x y)
    {ts : List Token} {xs : List β} (h : Amid item ts xs) (hts : Scanned ts) :
    xs.Pairwise related := by
  induction h with
  | nil => exact List.Pairwise.nil
  | skip _ ih => exact ih hts.right
  | @cons ts x us xs hx hxs ih =>
      refine List.Pairwise.cons (fun y hy => ?_) (ih hts.right)
      obtain ⟨vs, hvs, hy⟩ := hxs.sublist hy
      exact hitem (hts.sublist (hvs.append_left ts)) hx hy

namespace Grammar

/-- The names of rules stand one behind the other. -/
theorem nameMark_apart (s : Text) :
    (parse s).rules.Pairwise fun r q => r.nameMark.stop ≤ q.nameMark.start := by
  refine (parse_amid s).pairwise (fun {us vs r q} hts hr hq => ?_) (significant_scanned s)
  obtain ⟨t, ht, hmark, -⟩ := hr.derives.exists_nameToken
  obtain ⟨u, hu, hmark', -⟩ := hq.derives.exists_nameToken
  rw [hmark, hmark']
  exact hts.stop_le_start ht hu

/-- Rules stand one behind the other, also where some could not be read. -/
theorem rules_apart (s : Text) :
    (parse s).rules.Pairwise fun r q => r.mark.stop ≤ q.mark.start := by
  refine (parse_amid s).pairwise (fun {us vs r q} hts hr hq => ?_) (significant_scanned s)
  rw [hr.derives.mark_eq, hq.derives.mark_eq]
  exact Span.over_stop_le_start hts (Parser.rule_ne_nil hr.derives) (Parser.rule_ne_nil hq.derives)

/-- The text at the name of a rule is the name. -/
theorem slice?_nameMark {s : Text} {r : Rule Span} (hr : r ∈ (parse s).rules) :
    r.nameMark.start < r.nameMark.stop ∧ s.slice? r.nameMark = some r.name := by
  obtain ⟨us, hus, hfits⟩ := (parse_amid s).sublist hr
  obtain ⟨t, ht, hmark, hname⟩ := hfits.derives.exists_nameToken
  have hmem := hus.subset ht
  rw [hmark, hname]
  exact ⟨(significant_scanned s).forward t hmem,
    (tiles_tokenize s).slice t (List.mem_filter.mp hmem).1⟩

theorem nameMark_ne (s : Text) :
    (parse s).rules.Pairwise fun r q => r.nameMark ≠ q.nameMark := by
  refine (nameMark_apart s).imp_of_mem fun hr _ hapart heq => ?_
  have hforward := (slice?_nameMark hr).1
  rw [← heq] at hapart
  omega

/-! ## Definitions -/

variable {g : Grammar} {name : Text} {r : Rule Span} {asked : Option Text}

/-- The rule is the first one of the name. -/
def Defines (g : Grammar) (name : Text) (r : Rule Span) : Prop :=
  ∃ front back, g.rules = front ++ r :: back ∧ r.name = name ∧ ∀ q ∈ front, q.name ≠ name

theorem definition?_eq_some_iff : g.definition? name = some r ↔ g.Defines name r := by
  rw [definition?, List.find?_eq_some_iff_append, Defines]
  constructor
  · rintro ⟨hname, front, back, hrules, hfront⟩
    exact ⟨front, back, hrules, by simpa using hname, fun q hq => by simpa using hfront q hq⟩
  · rintro ⟨front, back, hrules, hname, hfront⟩
    exact ⟨by simpa using hname, front, back, hrules, fun q hq => by simpa using hfront q hq⟩

theorem definition?_eq_none_iff : g.definition? name = none ↔ ∀ q, ¬g.Defines name q := by
  simp only [Option.eq_none_iff_forall_ne_some, ne_eq, definition?_eq_some_iff]

theorem isDefined_iff_defines : g.isDefined name = true ↔ ∃ q, g.Defines name q := by
  rw [isDefined, Option.isSome_iff_exists]
  exact exists_congr fun q => definition?_eq_some_iff

/-- A name has one definition at most. -/
theorem Defines.unique {q : Rule Span} (hr : g.Defines name r) (hq : g.Defines name q) : r = q :=
  Option.some.inj ((definition?_eq_some_iff.mpr hr).symm.trans (definition?_eq_some_iff.mpr hq))

theorem Defines.mem (h : g.Defines name r) : r ∈ g.rules := by
  obtain ⟨front, back, hrules, -⟩ := h
  rw [hrules]
  exact List.mem_append_right front List.mem_cons_self

/-- A rule's name is defined, if perhaps by another rule. -/
theorem exists_defines (h : r ∈ g.rules) : ∃ q, g.Defines r.name q := by
  rw [← isDefined_iff_defines, isDefined, definition?, List.find?_isSome]
  exact ⟨r, h, beq_self_eq_true r.name⟩

/-- The definition of `a` mentions `b`, and `b` is defined. -/
def Leads (g : Grammar) (a b : Text) : Prop :=
  ∃ r, g.Defines a r ∧ r.body.Mentions b ∧ ∃ q, g.Defines b q

theorem leads_eq_needs (g : Grammar) : g.Leads = g.Needs := by
  funext a b
  simp only [Leads, Needs, definition?_eq_some_iff, Expression.mem_uses_iff, isDefined_iff_defines]

/-- A path of steps connects the start rule to the name. -/
def Connects (g : Grammar) (start : Rule Span) (name : Text) : Prop :=
  Relation.ReflTransGen g.Leads start.name name

theorem mem_reachable_iff_connects {start : Rule Span} :
    name ∈ Check.reachable g start ↔ g.Connects start name := by
  rw [Check.mem_reachable_iff, Connects, leads_eq_needs]

instance (g : Grammar) (start : Rule Span) : DecidablePred (g.Connects start) := fun name =>
  decidable_of_iff ((Check.reachable g start).contains name = true)
    (List.contains_iff_mem.trans mem_reachable_iff_connects)

/-- Whatever a rule is connected to is defined. -/
theorem Connects.exists_defines {start : Rule Span} (hstart : start ∈ g.rules)
    (h : g.Connects start name) : ∃ q, g.Defines name q := by
  cases h with
  | refl => exact Grammar.exists_defines hstart
  | tail _ hlast =>
      obtain ⟨-, -, -, hdefined⟩ := hlast
      exact hdefined

/-- Reachability starts from the definition of the name that is asked for, and without one
    from the first rule. -/
inductive StartsFrom (g : Grammar) (asked : Option Text) : Rule Span → Prop
  | asked {n start} : asked = some n → g.Defines n start → StartsFrom g asked start
  | first {start rs} : (∀ n ∈ asked, ∀ q, ¬g.Defines n q) → g.rules = start :: rs →
      StartsFrom g asked start

theorem StartsFrom.mem {start : Rule Span} (h : g.StartsFrom asked start) : start ∈ g.rules := by
  cases h with
  | asked _ hdefines => exact hdefines.mem
  | first _ hrules =>
      rw [hrules]
      exact List.mem_cons_self

theorem startRule?_eq_some_iff {start : Rule Span} :
    Check.startRule? g asked = some start ↔ g.StartsFrom asked start := by
  rw [Check.startRule?]
  cases hfound : asked.bind g.definition? with
  | some r =>
      obtain ⟨name, rfl, hname⟩ := Option.bind_eq_some_iff.mp hfound
      have hdefines := definition?_eq_some_iff.mp hname
      constructor
      · intro h
        obtain rfl := Option.some.inj h
        exact .asked rfl hdefines
      · intro h
        cases h with
        | asked hasked hq =>
            obtain rfl := Option.some.inj hasked
            exact congrArg some (hdefines.unique hq)
        | first hnone _ => exact absurd hdefines (hnone name rfl r)
  | none =>
      have hnone : ∀ name ∈ asked, ∀ q, ¬g.Defines name q := by
        intro name hname
        rw [← definition?_eq_none_iff]
        exact Option.bind_eq_none_iff.mp hfound name hname
      show g.rules.head? = some start ↔ _
      rw [List.head?_eq_some_iff]
      constructor
      · rintro ⟨rs, hrules⟩
        exact .first hnone hrules
      · intro h
        cases h with
        | asked hasked hq => exact absurd hq (hnone _ hasked start)
        | first _ hrules => exact ⟨_, hrules⟩

end Grammar

namespace Check

variable {g : Grammar}

/-- No name is found twice. -/
theorem saturate_nodup (n : Nat) : ∀ {known fresh : List Text}, known.Nodup →
    (saturate g n known fresh).Nodup := by
  induction n with
  | zero => exact fun hknown => hknown
  | succ n ih =>
      intro known fresh hknown
      rw [saturate]
      cases hfrontier : frontier g known fresh with
      | nil => exact hknown
      | cons name names =>
          refine ih (List.nodup_append'.mpr ⟨hknown, ?_, fun a ha hnew => ?_⟩)
          · rw [← hfrontier]
            exact (distinctNames_nodup _).filter _
          · rw [← hfrontier] at hnew
            exact (mem_frontier.mp hnew).2 ha

open Grammar

/-- **Reachability is the transitive closure.**  The names that are found are the defined ones
    that some path connects to the start rule, each once, and a rule of any other name is
    reported, in source order, once at its own name. -/
theorem unreachableRules_exact (s : Text) (asked : Option Text) :
    ((parse s).rules = [] ∧ unreachableRules (parse s) asked = [] ∨
      ∃ start, (parse s).StartsFrom asked start ∧ startRule? (parse s) asked = some start ∧
        (reachable (parse s) start).Nodup ∧
        (∀ name, name ∈ reachable (parse s) start ↔
          (∃ q, (parse s).Defines name q) ∧ (parse s).Connects start name) ∧
        unreachableRules (parse s) asked =
          ((parse s).rules.filter fun r => ¬(parse s).Connects start r.name).map fun r =>
            ⟨.unreachableRule, r.nameMark, "rule `" ++ String.ofList r.name
              ++ "` is not reachable from start rule `" ++ String.ofList start.name ++ "`"⟩) ∧
      (∀ r ∈ (parse s).rules,
        r.nameMark.start < r.nameMark.stop ∧ s.slice? r.nameMark = some r.name) ∧
      (parse s).rules.Pairwise fun r q => r.nameMark.stop ≤ q.nameMark.start := by
  refine ⟨?_, fun r hr => slice?_nameMark hr, nameMark_apart s⟩
  cases hstart : startRule? (parse s) asked with
  | none =>
      refine Or.inl ⟨?_, by rw [unreachableRules, hstart]⟩
      rw [startRule?] at hstart
      split at hstart
      · cases hstart
      · exact List.head?_eq_none_iff.mp hstart
  | some start =>
      have hfrom := startRule?_eq_some_iff.mp hstart
      refine Or.inr ⟨start, hfrom, rfl, saturate_nodup _ (List.nodup_singleton _), ?_, ?_⟩
      · intro name
        rw [mem_reachable_iff_connects]
        exact ⟨fun h => ⟨h.exists_defines hfrom.mem, h⟩, And.right⟩
      · have hkept : ((parse s).rules.filter fun r => !(reachable (parse s) start).contains r.name)
            = (parse s).rules.filter fun r => ¬(parse s).Connects start r.name := by
          refine List.filter_congr fun r _ => ?_
          rw [List.contains_eq_mem, ← decide_not]
          exact decide_eq_decide.mpr (not_congr mem_reachable_iff_connects)
        rw [unreachableRules, hstart]
        exact congrArg (List.map (unreachableRule start)) hkept

/-- A use in an exception connects as any other does; the second rule of `b` is not asked for
    what it uses, and is not reported either. -/
example : (unreachableRules (parse "a = b - c ; b = 'x' ; b = d ; c = a ; d = a ;".toList)
    (some ['a'])).map (·.span) = [⟨38, 39⟩] := by
  decide +kernel

end Check

end EbnfKit
