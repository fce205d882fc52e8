import EbnfKit.CommandLine.FileTree
import EbnfKit.CommandLine.Run
import EbnfKit.Proofs.Convergence
import EbnfKit.Proofs.Dangling

/-! # Commands — `fix` writes all of its work or none

    Writing a file of a tree changes what that file holds and nothing else, so paths lead
    where they led before:

      read file = ok x,  file not the null device   imply
          write file y = ok tree',  tree'.read file = ok y

    The rounds of `fix` read only what they wrote, and what they come to is written once, at
    their end.  Along them a text stays free of syntax errors and gets no names. -/

namespace EbnfKit

/-! ## Rounds -/

namespace Grammar

variable {s s' : Text} {fixes : List Fix}

/-- A round keeps no name that was not there. -/
theorem Round.names_subset (h : Round s fixes s') (hclean : (parse s').diagnostics = []) :
    ∀ n ∈ (parse s').names, n ∈ (parse s).names := by
  intro n hn
  rw [h.names hclean] at hn
  exact (List.mem_filter.mp hn).1

/-- **What rounds come to**, if they do not fail: a text without syntax errors and without new
    names, by induction on the rounds that are left. -/
theorem rounds_keep (left : Nat) : ∀ {s : Text} {number : Nat} {fixed : Fix.Fixed},
    (parse s).diagnostics = [] → Fix.rounds number left (parse s) = .ok fixed →
      (parse fixed.text).diagnostics = [] ∧ ∀ n ∈ (parse fixed.text).names, n ∈ (parse s).names := by
  induction left with
  | zero =>
      intro s number fixed h hrounds
      rw [Fix.rounds, source_parse] at hrounds
      cases hrounds
      exact ⟨h, fun n hn => hn⟩
  | succ left ih =>
      intro s number fixed h hrounds
      obtain ⟨fixes, s', hrun, -, hround⟩ := round_of_clean h
      cases fixes with
      | nil =>
          rw [rounds_of_nothing hrun] at hrounds
          cases hrounds
          exact ⟨h, fun n hn => hn⟩
      | cons f fixes =>
          have hstep : Fix.rounds number (left + 1) (parse s) =
              if (parse s').isBroken then .error (.broken number (parse s').diagnostics.length)
              else (Fix.rounds (number + 1) left (parse s')).map fun fixed =>
                ⟨fixed.text, (f :: fixes).length + fixed.applied⟩ := by
            rw [Fix.rounds, hrun]
          rw [hstep] at hrounds
          by_cases hbroken : (parse s').isBroken = true
          · rw [if_pos hbroken] at hrounds
            cases hrounds
          · rw [if_neg hbroken] at hrounds
            have hclean : (parse s').diagnostics = [] := by
              simpa [isBroken] using hbroken
            cases hnext : Fix.rounds (number + 1) left (parse s') with
            | error e =>
                rw [hnext] at hrounds
                cases hrounds
            | ok last =>
                rw [hnext] at hrounds
                cases hrounds
                obtain ⟨hlast, hnames⟩ := ih hclean hnext
                exact ⟨hlast, fun n hn => hround.names_subset hclean n (hnames n hn)⟩

/-- There is nothing to fix in the empty text. -/
theorem rounds_empty (number left : Nat) : Fix.rounds number left (parse []) = .ok ⟨[], 0⟩ := by
  have hoffer : Fix.offerAll (parse []) (parse []).analyze = .ok [] := by
    rw [analyze_eq_nil (by decide +kernel)]
    rfl
  exact rounds_of_nothing (round_eq_ok hoffer rfl) number left

end Grammar

namespace CommandLine

/-! ## Files -/

namespace FileTree

variable {tree : FileTree} {path : Text} {names : List Text} {x y : Text}

/-- The tree with a text for what the file with the given names holds. -/
def put (tree : FileTree) (names : List Text) (y : Text) : FileTree :=
  ⟨tree.files.map fun file => if file.1 = names then (file.1, .text y) else file⟩

theorem put_contents? (tree : FileTree) (names : List Text) (y : Text) (others : List Text) :
    (tree.put names y).contents? others =
      (tree.contents? others).map fun held => if others = names then .text y else held := by
  obtain ⟨files⟩ := tree
  show List.lookup others (files.map _) = (List.lookup others files).map _
  induction files with
  | nil => rfl
  | cons file files ih =>
      obtain ⟨own, held⟩ := file
      have hown : (if own = names then (own, .text y) else (own, held) : List Text × Contents)
          = (own, if own = names then .text y else held) := by
        split <;> rfl
      rw [List.map_cons, hown, List.lookup_cons, List.lookup_cons, ih]
      by_cases hsame : others = own
      · rw [beq_iff_eq.mpr hsame, hsame]
        rfl
      · rw [beq_eq_false_iff_ne.mpr hsame]

theorem put_isDirectory (tree : FileTree) (names : List Text) (y : Text) (others : List Text) :
    (tree.put names y).isDirectory others = tree.isDirectory others := by
  have hfile : ∀ file : List Text × Contents,
      (if file.1 = names then (file.1, .text y) else file : List Text × Contents).1 = file.1 := by
    intro file
    split <;> rfl
  rw [isDirectory, isDirectory, put, List.any_map]
  simp only [Function.comp_def, hfile]

theorem put_walk (tree : FileTree) (names : List Text) (y : Text) (steps : List Text) :
    ∀ place, (tree.put names y).walk place steps = tree.walk place steps := by
  induction steps with
  | nil => exact fun _ => rfl
  | cons step steps ih =>
      intro place
      cases place <;> simp only [walk, ih, put_isDirectory, put_contents?, Option.isSome_map]

theorem put_locate (tree : FileTree) (names : List Text) (y : Text) (path : Text) :
    (tree.put names y).locate path = tree.locate path := by
  rw [locate, locate, put_walk]

/-- Writing a file that is there succeeds. -/
theorem write_of_find {held : Contents} (h : tree.find path = .ok (names, held)) :
    tree.write path y = .ok (tree.put names y) := by
  rw [write, h]
  rfl

/-- What was written is found. -/
theorem find_put {held : Contents} (h : tree.find path = .ok (names, held)) :
    (tree.put names y).find path = .ok (names, .text y) := by
  rw [find] at h ⊢
  rw [put_locate]
  cases hplace : tree.locate path with
  | error e =>
      rw [hplace] at h
      cases h
  | ok place =>
      rw [hplace] at h
      cases place with
      | above => cases h
      | inside others =>
          cases hheld : tree.contents? others with
          | none => simp [hheld] at h
          | some inner =>
              simp only [hheld, Except.ok.injEq, Prod.mk.injEq] at h
              obtain ⟨rfl, rfl⟩ := h
              simp [put_contents?, hheld]

/-- **A file reads as it was written**, if it could be read before. -/
theorem read_write (h : tree.read path = .ok x) (hpath : path ≠ nullDevice) :
    ∃ tree', tree.write path y = .ok tree' ∧ tree'.read path = .ok y := by
  rw [read, if_neg hpath] at h
  cases hfind : tree.find path with
  | error e =>
      rw [hfind] at h
      cases h
  | ok found =>
      obtain ⟨names, held⟩ := found
      refine ⟨_, write_of_find hfind, ?_⟩
      rw [read, if_neg hpath, find_put hfind]

end FileTree

/-! ## The command -/

variable {tree : FileTree} {file source : Text} {format : Format} {write : Bool}

/-- A text with syntax errors is refused. -/
theorem fixScript_refused (hread : tree.read file = .ok source)
    (h : (Grammar.parse source).diagnostics ≠ []) :
    ∃ notices, (fixScript format file write).run tree = (⟨notices, [], false⟩, tree) := by
  have hbroken : (Grammar.parse source).isBroken = true := by
    simpa [Grammar.isBroken] using h
  simp only [fixScript, withSource, Script.run, hread, hbroken, if_true]
  exact ⟨_, rfl⟩

/-- Where the rounds fail, nothing is written. -/
theorem fixScript_failed (hread : tree.read file = .ok source)
    (h : (Grammar.parse source).diagnostics = []) {e : Fix.RoundsError}
    (hrounds : Fix.rounds 1 Fix.maxRounds (Grammar.parse source) = .error e) :
    ∃ notices, (fixScript format file write).run tree = (⟨notices, [], false⟩, tree) := by
  have hunbroken := Grammar.isBroken_of_clean h
  simp only [fixScript, withSource, Script.run, hread, hunbroken, Bool.false_eq_true, if_false,
    hrounds]
  cases e with
  | fix e => exact ⟨_, rfl⟩
  | broken round count => exact ⟨_, rfl⟩

/-- Where they do not, their text is shown or written. -/
theorem fixScript_done (hread : tree.read file = .ok source)
    (h : (Grammar.parse source).diagnostics = []) {fixed : Fix.Fixed}
    (hrounds : Fix.rounds 1 Fix.maxRounds (Grammar.parse source) = .ok fixed) :
    ∃ notices tree',
      (fixScript format file write).run tree
        = (⟨notices, fixOutput format write file fixed, true⟩, tree') ∧
      (write = false → tree' = tree) ∧ (write = true → tree'.read file = .ok fixed.text) := by
  have hunbroken := Grammar.isBroken_of_clean h
  simp only [fixScript, withSource, Script.run, hread, hunbroken, Bool.false_eq_true, if_false,
    hrounds]
  by_cases hchanged : (write && fixed.text != source) = true
  · obtain ⟨hwrite, hne⟩ := Bool.and_eq_true_iff.mp hchanged
    -- the null device holds the empty text, which no round changes
    have hfile : file ≠ FileTree.nullDevice := by
      rintro rfl
      rw [FileTree.read, if_pos rfl] at hread
      cases hread
      rw [Grammar.rounds_empty] at hrounds
      cases hrounds
      exact absurd rfl (bne_iff_ne.mp hne)
    obtain ⟨tree', hwritten, hreads⟩ := FileTree.read_write (y := fixed.text) hread hfile
    rw [if_pos hchanged]
    simp only [Script.run, hwritten]
    exact ⟨_, tree', rfl, fun hnot => absurd hwrite (by rw [hnot]; exact Bool.false_ne_true),
      fun _ => hreads⟩
  · rw [if_neg hchanged]
    refine ⟨_, tree, rfl, fun _ => rfl, fun hwrite => ?_⟩
    rw [hwrite, Bool.true_and, bne_iff_ne, not_not] at hchanged
    rw [hchanged]
    exact hread

/-- The settings under which all that a command has to show is shown, as text. -/
def Settings.plain (settings : Settings) : Settings :=
  { settings with format := .text, quiet := false }

/-- **`fix` is all or nothing.**  On a file that can be read: unless the command succeeds and
    is asked to write, no file changes; on a text with syntax errors it fails; and where it
    succeeds and is asked to write, the file then holds a text without syntax errors and
    without new rule names, the one that the command shows if it is not asked to. -/
theorem fix_all_or_nothing (settings : Settings) (file : Text) (write : Bool) (tree : FileTree)
    (source : Text) (hread : tree.read file = .ok source) :
    ∃ result tree', (Invocation.script ⟨settings, .fix file write⟩).run tree = (result, tree') ∧
      ((settings.outcome result).code ≠ 0 ∨ write = false → tree' = tree) ∧
      ((Grammar.parse source).diagnostics ≠ [] → (settings.outcome result).code = 1) ∧
      ((settings.outcome result).code = 0 → write = true →
        ∃ text, tree'.read file = .ok text ∧ (Grammar.parse text).diagnostics = [] ∧
          (∀ n ∈ (Grammar.parse text).names, n ∈ (Grammar.parse source).names) ∧
          ∃ shown, (Invocation.script ⟨settings.plain, .fix file false⟩).run tree = (shown, tree) ∧
            (settings.plain.outcome shown).code = 0 ∧
            (settings.plain.outcome shown).stdout = text) := by
  by_cases h : (Grammar.parse source).diagnostics = []
  · cases hrounds : Fix.rounds 1 Fix.maxRounds (Grammar.parse source) with
    | error e =>
        obtain ⟨notices, hrun⟩ := fixScript_failed hread h hrounds
        exact ⟨_, tree, hrun, fun _ => rfl, fun hbroken => absurd h hbroken,
          fun hcode => absurd hcode Nat.one_ne_zero⟩
    | ok fixed =>
        obtain ⟨notices, tree', hrun, hsame, hwritten⟩ := fixScript_done hread h hrounds
        obtain ⟨shown, _, hshown, hkept, -⟩ := fixScript_done hread h hrounds
        obtain ⟨hclean, hnames⟩ := Grammar.rounds_keep _ h hrounds
        rw [hkept rfl] at hshown
        refine ⟨_, tree', hrun, ?_, fun hbroken => absurd h hbroken, fun _ hwrite =>
          ⟨fixed.text, hwritten hwrite, hclean, hnames, _, hshown, rfl, rfl⟩⟩
        rintro (hcode | hwrite)
        · exact absurd rfl hcode
        · exact hsame hwrite
  · obtain ⟨notices, hrun⟩ := fixScript_refused hread h
    exact ⟨_, tree, hrun, fun _ => rfl, fun _ => rfl, fun hcode => absurd hcode Nat.one_ne_zero⟩

/-- Groups nested in each other take two rounds; the file is written once, with what the
    command shows if it is not asked to write. -/
theorem fix_all_or_nothing_two_rounds :
    FileTree.read ⟨[(["g".toList], .text "a = ( ( b ) ) ; b = 'y' ; c = a ;".toList)]⟩ "g".toList
        = .ok "a = ( ( b ) ) ; b = 'y' ; c = a ;".toList ∧
      ∃ result tree',
        (Invocation.script ⟨⟨.json, true, .off⟩, .fix "g".toList true⟩).run
            ⟨[(["g".toList], .text "a = ( ( b ) ) ; b = 'y' ; c = a ;".toList)]⟩
          = (result, tree') ∧
        tree'.read "g".toList = .ok "a = b ; b = 'y' ; ".toList ∧
        ∃ shown tree'', (Invocation.script ⟨⟨.text, false, .off⟩, .fix "g".toList false⟩).run
            ⟨[(["g".toList], .text "a = ( ( b ) ) ; b = 'y' ; c = a ;".toList)]⟩
          = (shown, tree'') ∧ shown.output = "a = b ; b = 'y' ; ".toList := by
  have hread : FileTree.read ⟨[(["g".toList], .text "a = ( ( b ) ) ; b = 'y' ; c = a ;".toList)]⟩
      "g".toList = .ok "a = ( ( b ) ) ; b = 'y' ; c = a ;".toList := by
    decide +kernel
  have hsuccess : ((Invocation.script ⟨⟨.json, true, .off⟩, .fix "g".toList true⟩).run
      ⟨[(["g".toList], .text "a = ( ( b ) ) ; b = 'y' ; c = a ;".toList)]⟩).1.success = true := by
    decide +kernel
  have hwritten : ((Invocation.script ⟨⟨.json, true, .off⟩, .fix "g".toList true⟩).run
      ⟨[(["g".toList], .text "a = ( ( b ) ) ; b = 'y' ; c = a ;".toList)]⟩).2.read "g".toList
        = .ok "a = b ; b = 'y' ; ".toList := by
    decide +kernel
  obtain ⟨result, tree', hrun, -, -, hdone⟩ :=
    fix_all_or_nothing ⟨.json, true, .off⟩ "g".toList true _ _ hread
  rw [hrun] at hsuccess hwritten
  obtain ⟨text, htext, -, -, shown, hshown, -, hstdout⟩ :=
    hdone (if_pos hsuccess) rfl
  rw [hwritten] at htext
  cases htext
  exact ⟨hread, result, tree', hrun, hwritten, shown, _, hshown, hstdout⟩

end CommandLine

end EbnfKit
