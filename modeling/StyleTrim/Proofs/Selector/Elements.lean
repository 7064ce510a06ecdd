import StyleTrim.Proofs.Selector.Grammar

/-!
# Where elements stand

The name of an element leads a compound selector, or stands right behind a nesting sign. Only a bar
without a namespace gets the name of an element into another place.
-/

namespace StyleTrim
namespace Grammar

open Token Simple Selector

variable {ts us : List Token} {runs : List Run} {compound : Compound}

/-- Elements stand first, or right behind a nesting sign. -/
def ElementsLead (c : Compound) : Prop :=
  c.IsChain fun a b => namesElement b = true -> a = .nesting

/-- Runs that begin with a bar stand first, or right behind a nesting sign. -/
def BarsLead (runs : List Run) : Prop :=
  runs.IsChain fun a b => startsBar b.tokens = true -> a.simple = .nesting

/-- The tokens hold the compound selector, written by the runs. -/
structure Holds (ts : List Token) (c : Compound) (runs : List Run) : Prop where
  within : tokensOf runs <:+: ts
  row : Row runs
  simples : simplesOf runs = c

theorem Holds.of_infix (h : Holds us compound runs) (hus : us <:+: ts) : Holds ts compound runs :=
  ⟨h.within.trans hus, h.row, h.simples⟩

theorem SpellsParts.holds {parts : Parts} (h : SpellsParts ts parts) :
    ∀ part ∈ parts, ∃ runs, Holds ts part.2 runs := by
  induction h with
  | nil => nofun
  | cons hjoin hrow hmore ih =>
      rename_i join us runs c parts
      intro part hpart
      rcases List.mem_cons.mp hpart with rfl | hpart
      · exact ⟨runs, ⟨join, us, by simp⟩, hrow, rfl⟩
      · rcases ih part hpart with ⟨found, hfound⟩
        exact ⟨found, hfound.of_infix ⟨join ++ tokensOf runs, [], by simp⟩⟩

theorem SpellsComplex.holds {c : Complex} (h : SpellsComplex ts c) :
    ∀ compound ∈ c.compounds, ∃ runs, Holds ts compound runs := by
  cases h with
  | mk hrow hparts =>
      rename_i runs us parts
      intro compound hcompound
      rcases List.mem_cons.mp hcompound with rfl | hcompound
      · exact ⟨runs, ⟨[], us, by simp⟩, hrow, rfl⟩
      · rcases List.mem_map.mp hcompound with ⟨part, hpart, rfl⟩
        rcases hparts.holds part hpart with ⟨found, hfound⟩
        exact ⟨found, hfound.of_infix ⟨tokensOf runs, [], by simp⟩⟩

theorem SpellsList.holds {list : SelectorList} (h : SpellsList ts list) :
    ∀ c ∈ list, ∀ compound ∈ c.compounds, ∃ runs, Holds ts compound runs := by
  induction h with
  | last hc hgap =>
      intro c hmem compound hcompound
      obtain rfl := List.mem_singleton.mp hmem
      rcases hc.holds compound hcompound with ⟨runs, hruns⟩
      exact ⟨runs, hruns.of_infix (List.prefix_append _ _).isInfix⟩
  | cons hc hgap hcomma hgap' hmore ih =>
      rename_i us gap gap' vs comma first list
      intro c hmem compound hcompound
      rcases List.mem_cons.mp hmem with rfl | hmem
      · rcases hc.holds compound hcompound with ⟨runs, hruns⟩
        exact ⟨runs, hruns.of_infix (List.prefix_append _ _).isInfix⟩
      · rcases ih c hmem compound hcompound with ⟨runs, hruns⟩
        exact ⟨runs, hruns.of_infix ⟨us ++ (gap ++ comma :: gap'), [], by simp⟩⟩

theorem Row.elementsLead_iff (h : Row runs) : ElementsLead (simplesOf runs) ↔ BarsLead runs := by
  rw [ElementsLead, simplesOf, List.isChain_map, BarsLead]
  constructor
  · intro hlead
    apply hlead.imp
    intro a b hrule hbar
    exact hrule (b.spells.namesElement_of_startsBar hbar)
  · intro hlead
    rw [List.isChain_iff_getElem] at hlead ⊢
    intro i hi hnames
    rcases (h.fits.getElem i hi).element hnames with hbar | hnesting
    · exact hlead i hi hbar
    · exact hnesting

/-- In every compound selector that is read, from tokens or from a text, elements lead where bars
do: the only run that brings an element into another place is one that begins with a bar. -/
theorem elementsLead_iff_barsLead {list : SelectorList}
    (h : SelectorList.ofTokens ts = .ok list ∨
      ∃ text, ts = tokenize text ∧ SelectorList.ofText text = .ok list) :
    ∀ c ∈ list, ∀ compound ∈ c.compounds,
      ∃ runs, Holds (body ts) compound runs ∧ (ElementsLead compound ↔ BarsLead runs) := by
  have hread : SelectorList.ofTokens ts = .ok list := by
    rcases h with h | ⟨text, rfl, h⟩
    · exact h
    · rw [SelectorList.ofText] at h
      split at h
      · cases h
      · exact h
  rcases ofTokens_iff.mp hread with ⟨gap, us, hgap, hbody, hspells⟩
  intro c hc compound hcompound
  rcases hspells.holds c hc compound hcompound with ⟨runs, hruns⟩
  refine ⟨runs, hruns.of_infix ⟨gap, [], by simp [hbody]⟩, ?_⟩
  rw [← hruns.simples]
  exact hruns.row.elementsLead_iff

theorem elementsLead_iff_barsLead_of_bar :
    SelectorList.ofText (ascii ".x|a") =
        .ok [⟨[.className (ascii "x"), .element (ascii "a")], []⟩] ∧
      ¬ElementsLead [.className (ascii "x"), .element (ascii "a")] ∧
      ∃ runs, Holds (body (tokenize (ascii ".x|a")))
          [.className (ascii "x"), .element (ascii "a")] runs ∧ ¬BarsLead runs := by
  have hread : SelectorList.ofText (ascii ".x|a") =
      .ok [⟨[.className (ascii "x"), .element (ascii "a")], []⟩] := by decide +kernel
  have hlead : ¬ElementsLead [.className (ascii "x"), .element (ascii "a")] := by
    simp [ElementsLead, namesElement]
  refine ⟨hread, hlead, ?_⟩
  rcases elementsLead_iff_barsLead (Or.inr ⟨_, rfl, hread⟩) _ List.mem_cons_self _
    List.mem_cons_self with ⟨runs, hruns, hiff⟩
  exact ⟨runs, hruns, fun hbars => hlead (hiff.mpr hbars)⟩

end Grammar
end StyleTrim
