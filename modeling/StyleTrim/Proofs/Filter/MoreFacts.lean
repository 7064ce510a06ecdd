import Mathlib.Data.List.Basic
import StyleTrim.Proofs.Filter.Liveness
import StyleTrim.Proofs.Page.Fragments

/-!
# More facts, more rules

A selector only ever asks that a name occurs in a page. So with more facts no rule is lost that was
kept with fewer. Whether a text can be filtered at all, and which nodes it has, does not depend on
the facts.
-/

namespace StyleTrim

/-!
## Selectors
-/

section

variable {facts wider : Facts}

theorem Simple.mayMatch_within (h : facts.Within wider) {s : Simple}
    (hmay : s.mayMatch facts = true) : s.mayMatch wider = true := by
  cases s with
  | element name =>
      exact List.contains_iff_mem.mpr (h.tags (List.contains_iff_mem.mp hmay))
  | id name =>
      exact List.contains_iff_mem.mpr (h.ids (List.contains_iff_mem.mp hmay))
  | className name =>
      exact List.contains_iff_mem.mpr (h.classes (List.contains_iff_mem.mp hmay))
  | _ => rfl

theorem Complex.mayMatch_within (h : facts.Within wider) {c : Complex}
    (hmay : c.mayMatch facts = true) : c.mayMatch wider = true := by
  simp only [Complex.mayMatch, List.all_eq_true] at hmay ⊢
  exact fun compound hcompound s hs => Simple.mayMatch_within h (hmay compound hcompound s hs)

theorem SelectorList.mayMatchAny_within (h : facts.Within wider) {list : SelectorList}
    (hmay : list.mayMatchAny facts = true) : list.mayMatchAny wider = true := by
  simp only [SelectorList.mayMatchAny, Bool.or_eq_true, List.any_eq_true] at hmay ⊢
  rcases hmay with hempty | ⟨c, hc, hmatch⟩
  · exact Or.inl hempty
  · exact Or.inr ⟨c, hc, Complex.mayMatch_within h hmatch⟩

end

namespace Filter

/-!
## Nodes
-/

variable {facts wider : Facts}

theorem keeps_within (h : facts.Within wider) {head : Head} (hkeeps : keeps facts head = true) :
    keeps wider head = true := by
  cases head with
  | rule prelude selectors =>
      simp only [keeps, Bool.or_eq_true] at hkeeps ⊢
      rcases hkeeps with halways | hmay
      · exact Or.inl halways
      · refine Or.inr ?_
        cases selectors with
        | none => rfl
        | some list => exact SelectorList.mayMatchAny_within h hmay
  | atRule name prelude block => rfl
  | declaration property value important => rfl

theorem keptNodes_sublist (h : facts.Within wider) (sheet : Sheet) :
    (keptNodes facts sheet).Sublist (keptNodes wider sheet) :=
  sheet.monotone_filter_right fun _ hkeeps => keeps_within h hkeeps

theorem removedNodes_sublist (h : facts.Within wider) (sheet : Sheet) :
    (removedNodes wider sheet).Sublist (removedNodes facts sheet) := by
  apply List.monotone_filter_right
  intro node hdrops
  rw [Bool.not_eq_true', ← Bool.not_eq_true] at hdrops ⊢
  exact fun hkeeps => hdrops (keeps_within h hkeeps)

theorem keptNodes_filter_not_isRule (facts : Facts) (sheet : Sheet) :
    ((keptNodes facts sheet).filter fun node => !node.head.isRule) =
      sheet.filter fun node => !node.head.isRule := by
  rw [keptNodes, List.filter_filter]
  apply List.filter_congr
  intro node _
  cases node.head <;> simp [Head.isRule, keeps]

theorem kept_add_removed (facts : Facts) (sheet : Sheet) :
    (statsOf facts sheet).kept + (statsOf facts sheet).removed = (statsOf facts sheet).total := by
  have hsplit := List.countP_eq_countP_filter_add sheet (fun node => node.head.isRule)
    fun node => keeps facts node.head
  simpa [statsOf, countRules, keptNodes, removedNodes] using hsplit.symm

/-!
## Texts
-/

theorem admits_of_run {o : Options} {css : Bytes} {output : Output}
    (h : (run o facts css).1 = .ok output) : o.Admits css := by
  by_contra hsize
  have hlarge : 0 < o.maxBytes ∧ o.maxBytes < css.length := by
    unfold Options.Admits at hsize
    omega
  rw [run, if_pos hlarge] at h
  cases h

theorem run_succeeds_iff {o : Options} {css : Bytes} :
    (∃ output, (run o facts css).1 = .ok output) ↔
      o.Admits css ∧ ∃ sheet, (Sheet.parseWithFallback css).result = .ok sheet := by
  constructor
  · rintro ⟨output, hrun⟩
    rcases run_cases hrun with ⟨sheet, hread, -⟩
    exact ⟨admits_of_run hrun, sheet, hread⟩
  · rintro ⟨hsize, sheet, hread⟩
    exact ⟨_, run_of_parse hsize hread⟩

/-- A page has the facts of each of its fragments. With more facts a text is filtered just the same,
and keeps all that it keeps with fewer. So what is kept for a fragment is kept for the page. -/
theorem more_markup_keeps_more :
    (∀ fragment front back : Bytes, fragment.head? = some 0x3C ->
      fragment.getLast? = some 0x3E ->
      (Facts.ofMarkup fragment).Within (Facts.ofMarkup (front ++ fragment ++ back))) ∧
    (∀ (o : Options) (css : Bytes) (facts wider : Facts), facts.Within wider ->
      ((∃ output, (run o facts css).1 = .ok output) ↔
        ∃ output, (run o wider css).1 = .ok output) ∧
      ∀ output output' : Output, (run o facts css).1 = .ok output ->
        (run o wider css).1 = .ok output' ->
        (∃ sheet, (Sheet.parseWithFallback css).result = .ok sheet ∧
          output = outputOf facts sheet ∧ output' = outputOf wider sheet ∧
          (keptNodes facts sheet).Sublist (keptNodes wider sheet) ∧
          (∀ found ∈ [facts, wider],
            ((keptNodes found sheet).filter fun node => !node.head.isRule) =
              sheet.filter fun node => !node.head.isRule)) ∧
        output.stats.kept + output.stats.removed = output.stats.total ∧
        output'.stats.kept + output'.stats.removed = output'.stats.total ∧
        output'.stats.total = output.stats.total ∧
        output'.stats.removed ≤ output.stats.removed) ∧
    (∀ (fragment front back : Bytes) (sheet : Sheet), fragment.head? = some 0x3C ->
      fragment.getLast? = some 0x3E ->
      (keptNodes (Facts.ofMarkup fragment) sheet).Sublist
        (keptNodes (Facts.ofMarkup (front ++ fragment ++ back)) sheet)) := by
  refine ⟨?_, ?_, ?_⟩
  · intro fragment front back hfirst hlast
    exact Facts.ofMarkup_within hfirst hlast front back
  · intro o css facts wider hwithin
    refine ⟨run_succeeds_iff.trans run_succeeds_iff.symm, ?_⟩
    intro output output' hrun hrun'
    rcases run_cases hrun with ⟨sheet, hread, rfl⟩
    rcases run_cases hrun' with ⟨sheet', hread', rfl⟩
    obtain rfl : sheet = sheet' := Except.ok.inj (hread.symm.trans hread')
    refine ⟨⟨sheet, hread, rfl, rfl, keptNodes_sublist hwithin sheet, fun found _ =>
      keptNodes_filter_not_isRule found sheet⟩, kept_add_removed facts sheet,
      kept_add_removed wider sheet, rfl, ?_⟩
    exact (removedNodes_sublist hwithin sheet).countP_le
  · intro fragment front back sheet hfirst hlast
    exact keptNodes_sublist (Facts.ofMarkup_within hfirst hlast front back) sheet

def boldTag : Bytes :=
  ascii "<b id=x>"

def titleFront : Bytes :=
  ascii "<i title='"

def titleBack : Bytes :=
  ascii "' class>"

def tagRule (name : String) : Node :=
  ⟨.rule (ascii name) (some [⟨[.element (ascii name)], []⟩]), []⟩

def printBlock : Node :=
  ⟨.atRule (ascii "media") (ascii "print") true, [tagRule "u"]⟩

theorem more_markup_keeps_more_around_tag :
    let css := ascii "i\x7b\x7db\x7b\x7du\x7b\x7d@media print\x7bu\x7b\x7d\x7d"
    let facts := Facts.ofMarkup boldTag
    let wider := Facts.ofMarkup (titleFront ++ boldTag ++ titleBack)
    let sheet := [tagRule "i", tagRule "b", tagRule "u", printBlock]
    facts.Within wider ∧
      (run {} facts css).1 = .ok (outputOf facts sheet) ∧
      (run {} wider css).1 = .ok (outputOf wider sheet) ∧
      keptNodes facts sheet = [tagRule "b", printBlock] ∧
      keptNodes wider sheet = [tagRule "i", tagRule "b", printBlock] ∧
      (keptNodes facts sheet).Sublist (keptNodes wider sheet) ∧
      (statsOf wider sheet).removed ≤ (statsOf facts sheet).removed := by
  intro css facts wider sheet
  have hwithin : facts.Within wider := more_markup_keeps_more.1 _ _ _ rfl rfl
  have hread : (Sheet.parseWithFallback css).result = .ok sheet :=
    eq_ok_of_toOption (by decide +kernel)
  have hrun : (run {} facts css).1 = .ok (outputOf facts sheet) :=
    run_of_parse (Or.inr (by decide +kernel)) hread
  have hrun' : (run {} wider css).1 = .ok (outputOf wider sheet) :=
    run_of_parse (Or.inr (by decide +kernel)) hread
  exact ⟨hwithin, hrun, hrun', by decide +kernel, by decide +kernel,
    more_markup_keeps_more.2.2 boldTag titleFront titleBack sheet rfl rfl,
    ((more_markup_keeps_more.2.1 {} css facts wider hwithin).2 _ _ hrun hrun').2.2.2.2⟩

end Filter
end StyleTrim
