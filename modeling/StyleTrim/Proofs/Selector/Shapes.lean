import StyleTrim.Proofs.Selector.Spacing

/-!
# What a selector list is made of

A selector list that was read has at least one complex selector, and each of them is a row of parts:
the first one stands alone, every other one behind its combinator, and none of them is empty.
-/

namespace StyleTrim

def Complex.parts (c : Complex) : List (Option Combinator × Compound) :=
  (none, c.first) :: c.more.map fun part => (some part.1, part.2)

/-- No combinator stands before the first part, one before every other part, and no part is
empty. -/
def Complex.WellFormed (c : Complex) : Prop :=
  (∃ first later, c.parts = (none, first) :: later ∧ ∀ part ∈ later, part.1.isSome = true) ∧
    ∀ part ∈ c.parts, part.2 ≠ []

theorem Complex.wellFormed_of {c : Complex} (hfirst : c.first ≠ [])
    (hmore : ∀ part ∈ c.more, part.2 ≠ []) : c.WellFormed := by
  refine ⟨⟨_, _, rfl, ?_⟩, ?_⟩
  · rw [List.forall_mem_map]
    exact fun part _ => rfl
  · rw [Complex.parts, List.forall_mem_cons, List.forall_mem_map]
    exact ⟨hfirst, hmore⟩

/-- There is a selector in the list, and each one is well formed. -/
def SelectorList.WellFormed (list : SelectorList) : Prop :=
  list ≠ [] ∧ ∀ c ∈ list, c.WellFormed

namespace Selector

variable {ts rest : List Token}

theorem collectParts_compound {taken parts : List (Combinator × Compound)}
    (htaken : ∀ part ∈ taken, part.2 ≠ []) (h : collectParts taken ts = .ok (parts, rest)) :
    ∀ part ∈ parts, part.2 ≠ [] := by
  induction hn : ts.length using Nat.strongRecOn generalizing taken ts with
  | ind n ih =>
    cases hread : readCombinator? ts with
    | none =>
        rw [collectParts_none hread] at h
        cases h
        exact fun part hpart => htaken part (List.mem_reverse.mp hpart)
    | some found =>
        rcases found with ⟨c, after⟩
        rw [collectParts_some hread] at h
        have hafter := readCombinator?_length hread
        split at h
        · cases h
        · cases h
        · rename_i s compound rest' hcompound
          have hlength := readCompound_length hcompound
          rw [List.length_cons] at hlength
          refine ih rest'.length (by omega) ?_ h rfl
          exact List.forall_mem_cons.mpr ⟨List.cons_ne_nil _ _, htaken⟩

theorem readComplex_wellFormed {c : Complex} (h : readComplex ts = .ok (c, rest)) :
    c.WellFormed := by
  rcases readComplex_ok h with ⟨s, compound, after, parts, _, hparts, rfl⟩
  exact Complex.wellFormed_of (List.cons_ne_nil _ _) (collectParts_compound (by simp) hparts)

theorem collectList_wellFormed {taken list : SelectorList} (htaken : ∀ c ∈ taken, c.WellFormed)
    (h : collectList taken ts = .ok list) : list.WellFormed := by
  induction hn : ts.length using Nat.strongRecOn generalizing taken ts with
  | ind n ih =>
    rw [collectList_eq] at h
    split at h
    · cases h
    · rename_i c rest hread
      have hall : ∀ c' ∈ c :: taken, c'.WellFormed :=
        List.forall_mem_cons.mpr ⟨readComplex_wellFormed hread, htaken⟩
      have hlength := readComplex_length hread
      have hrest := Simple.skipSpace_length_le rest
      split at h
      · cases h
        exact ⟨by simp, fun c' hc' => hall c' (List.mem_reverse.mp hc')⟩
      · rename_i t after hskip
        rw [hskip, List.length_cons] at hrest
        have hafter := Simple.skipSpace_length_le after
        split at h
        · split at h
          · cases h
          · rename_i next more hmore
            rw [hmore] at hafter
            exact ih (next :: more).length (by omega) hall h rfl
        · cases h

end Selector

theorem SelectorList.wellFormed_of_ofTokens {ts : List Token} {list : SelectorList}
    (h : SelectorList.ofTokens ts = .ok list) : list.WellFormed := by
  unfold SelectorList.ofTokens at h
  split at h
  · cases h
  · exact Selector.collectList_wellFormed (by simp) h

end StyleTrim
