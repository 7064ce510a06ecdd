import StyleTrim.Proofs.Selector.Spacing
import StyleTrim.Proofs.Token.Places

/-!
# Selectors wherever they stand

No reader looks at the place of a token. What is read of moved tokens is the same, and the tokens
that are left are moved as well.
-/

namespace StyleTrim

open Token

def movedRest {α : Type} (n : Nat) (found : α × List Token) : α × List Token :=
  (found.1, found.2.map (moved n))

namespace Simple

variable (n : Nat)

theorem skipSpace_map (ts : List Token) :
    skipSpace (ts.map (moved n)) = (skipSpace ts).map (moved n) := by
  induction ts with
  | nil => rfl
  | cons t ts ih =>
      rw [skipSpace, skipSpace, List.map_cons, List.dropWhile_cons, List.dropWhile_cons,
        ← skipSpace, ← skipSpace, ih]
      cases hspace : t.kind == .whitespace <;> simp [hspace]

/-!
## Elements and classes
-/

theorem dropElementNamespace_map (ts : List Token) :
    dropElementNamespace (ts.map (moved n)) = (dropElementNamespace ts).map (moved n) := by
  rcases ts with _ | ⟨t, _ | ⟨bar, _ | ⟨name, rest⟩⟩⟩ <;>
    simp only [dropElementNamespace, apply_ite (List.map _)] <;> rfl

theorem readElementName_map (ts : List Token) :
    readElementName (ts.map (moved n)) = (readElementName ts).map (movedRest n) := by
  cases ts with
  | nil => rfl
  | cons t ts =>
      simp only [readElementName, apply_ite (Except.map _)]
      rfl

theorem readClassName_map (ts : List Token) :
    readClassName (ts.map (moved n)) = (readClassName ts).map (movedRest n) := by
  cases ts with
  | nil => rfl
  | cons t ts =>
      simp only [readClassName, apply_ite (Except.map _)]
      rfl

/-!
## Pseudo-classes
-/

theorem readArgument_map (depth : Nat) (ts : List Token) :
    readArgument depth (ts.map (moved n)) = (readArgument depth ts).map (movedRest n) := by
  induction ts generalizing depth with
  | nil => rfl
  | cons t ts ih =>
      have hmap : ∀ found : Option (Bytes × List Token),
          (found.map (movedRest n)).map (fun r => (t.raw ++ r.1, r.2)) =
            (found.map fun r => (t.raw ++ r.1, r.2)).map (movedRest n) := by
        intro found
        cases found <;> rfl
      simp only [readArgument, List.map_cons, moved_raw, ih, hmap, apply_ite (Option.map _)]
      cases depth <;> rfl

theorem readPseudoName_map (doubled : Bool) (ts : List Token) :
    readPseudoName doubled (ts.map (moved n)) =
      (readPseudoName doubled ts).map (movedRest n) := by
  cases ts with
  | nil => rfl
  | cons t ts =>
      simp only [readPseudoName, List.map_cons, readArgument_map, apply_ite (Except.map _)]
      cases readArgument 0 ts with
      | none => rfl
      | some found =>
          simp only [Option.map_some, apply_ite (Except.map _)]
          rfl

theorem readPseudo_map (ts : List Token) :
    readPseudo (ts.map (moved n)) = (readPseudo ts).map (movedRest n) := by
  cases ts with
  | nil => rfl
  | cons t ts =>
      have hname := readPseudoName_map n false (t :: ts)
      rw [List.map_cons] at hname
      simp only [readPseudo, List.map_cons, readPseudoName_map, hname, apply_ite (Except.map _)]
      rfl

/-!
## Attributes
-/

theorem dropAttributeNamespace_map (ts : List Token) :
    dropAttributeNamespace (ts.map (moved n)) = (dropAttributeNamespace ts).map (moved n) := by
  rcases ts with _ | ⟨t, _ | ⟨bar, _ | ⟨name, rest⟩⟩⟩ <;>
    simp only [dropAttributeNamespace, apply_ite (List.map _)] <;> rfl

theorem readOperator_map (ts : List Token) :
    readOperator (ts.map (moved n)) = (readOperator ts).map (movedRest n) := by
  cases ts with
  | nil => rfl
  | cons t ts =>
      simp only [readOperator, List.map_cons, moved_value, apply_ite (Except.map _)]
      cases operatorOf? t.value with
      | none => rfl
      | some op =>
          cases ts with
          | nil => rfl
          | cons eq rest =>
              simp only [apply_ite (Except.map _)]
              rfl

theorem dropCaseMark_map (ts : List Token) :
    dropCaseMark (ts.map (moved n)) = (dropCaseMark ts).map (moved n) := by
  cases ts with
  | nil => rfl
  | cons t ts =>
      simp only [dropCaseMark, List.map_cons, skipSpace_map, apply_ite (List.map _)]
      rfl

theorem closeAttribute_map (s : Simple) (ts : List Token) :
    closeAttribute s (ts.map (moved n)) = (closeAttribute s ts).map (movedRest n) := by
  cases ts with
  | nil => rfl
  | cons t ts =>
      simp only [closeAttribute, apply_ite (Except.map _)]
      rfl

theorem readAttributeValue_map (name : Bytes) (op : AttributeOperator) (ts : List Token) :
    readAttributeValue name op (ts.map (moved n)) =
      (readAttributeValue name op ts).map (movedRest n) := by
  cases ts with
  | nil => rfl
  | cons t ts =>
      simp only [readAttributeValue, List.map_cons, skipSpace_map, dropCaseMark_map,
        closeAttribute_map, apply_ite (Except.map _)]
      rfl

theorem readAttributeTest_map (name : Bytes) (ts : List Token) :
    readAttributeTest name (ts.map (moved n)) = (readAttributeTest name ts).map (movedRest n) := by
  cases ts with
  | nil => rfl
  | cons t ts =>
      have hoperator := readOperator_map n (t :: ts)
      rw [List.map_cons] at hoperator
      simp only [readAttributeTest, List.map_cons, hoperator, apply_ite (Except.map _)]
      cases readOperator (t :: ts) with
      | error e => rfl
      | ok found =>
          simp only [← readAttributeValue_map, ← skipSpace_map]
          rfl

theorem readAttribute_map (ts : List Token) :
    readAttribute (ts.map (moved n)) = (readAttribute ts).map (movedRest n) := by
  rw [readAttribute, readAttribute, skipSpace_map, dropAttributeNamespace_map]
  cases dropAttributeNamespace (skipSpace ts) with
  | nil => rfl
  | cons t rest =>
      simp only [List.map_cons, skipSpace_map, readAttributeTest_map, apply_ite (Except.map _)]
      rfl

/-!
## Simple selectors
-/

theorem read?_map (last : Option Simple) (t : Token) (ts : List Token) :
    read? last (t.moved n) (ts.map (moved n)) =
      (read? last t ts).map (Except.map (movedRest n)) := by
  have helement := dropElementNamespace_map n (t :: ts)
  rw [List.map_cons] at helement
  simp only [read?, helement, readElementName_map, readClassName_map, readAttribute_map,
    readPseudo_map, apply_ite (Option.map _)]
  rfl

end Simple

namespace Selector

open Simple

variable (n : Nat)

/-!
## Compound and complex selectors
-/

theorem collectCompound_map (taken : Compound) (ts : List Token) :
    collectCompound taken (ts.map (moved n)) =
      (collectCompound taken ts).map (movedRest n) := by
  induction hlength : ts.length using Nat.strongRecOn generalizing taken ts with
  | ind length ih =>
    cases ts with
    | nil =>
        rw [List.map_nil, collectCompound]
        rfl
    | cons t rest =>
        have hread := read?_map n taken.head? t rest
        rw [List.map_cons]
        cases hfound : read? taken.head? t rest with
        | none =>
            rw [hfound] at hread
            rw [collectCompound_none hfound, collectCompound_none hread]
            rfl
        | some found =>
            rw [hfound] at hread
            cases found with
            | error e =>
                rw [collectCompound_error hfound, collectCompound_error hread]
                rfl
            | ok found =>
                have hlt := read?_length hfound
                rw [collectCompound_some hfound, collectCompound_some hread]
                exact ih _ (hlength ▸ hlt) _ _ rfl

theorem readCombinator?_map (ts : List Token) :
    readCombinator? (ts.map (moved n)) = (readCombinator? ts).map (movedRest n) := by
  have hstarts : startsWithSpace (ts.map (moved n)) = startsWithSpace ts := by
    cases ts <;> rfl
  rw [readCombinator?, readCombinator?, skipSpace_map, hstarts]
  cases skipSpace ts with
  | nil => rfl
  | cons t rest =>
      have hsign : combinatorOf? (t.moved n) = combinatorOf? t := rfl
      simp only [List.map_cons, hsign, skipSpace_map]
      cases combinatorOf? t with
      | some c => rfl
      | none =>
          simp only [apply_ite (Option.map _)]
          rfl

theorem collectParts_map (taken : Parts) (ts : List Token) :
    collectParts taken (ts.map (moved n)) = (collectParts taken ts).map (movedRest n) := by
  induction hlength : ts.length using Nat.strongRecOn generalizing taken ts with
  | ind length ih =>
    have hread := readCombinator?_map n ts
    cases hfound : readCombinator? ts with
    | none =>
        rw [hfound] at hread
        rw [collectParts_none hfound, collectParts_none hread]
        rfl
    | some found =>
        rcases found with ⟨c, rest⟩
        rw [hfound] at hread
        have hrest := readCombinator?_length hfound
        rw [collectParts_some hfound, collectParts_some hread, readCompound, collectCompound_map,
          ← readCompound]
        cases hcompound : readCompound rest with
        | error e => rfl
        | ok found =>
            rcases found with ⟨_ | ⟨s, compound⟩, rest'⟩
            · rfl
            · have hlt := readCompound_length hcompound
              rw [List.length_cons] at hlt
              exact ih rest'.length (by omega) _ _ rfl

theorem readComplex_map (ts : List Token) :
    readComplex (ts.map (moved n)) = (readComplex ts).map (movedRest n) := by
  rw [readComplex, readComplex, readCompound, collectCompound_map, ← readCompound]
  cases readCompound ts with
  | error e => rfl
  | ok found =>
      rcases found with ⟨_ | ⟨s, compound⟩, rest⟩
      · cases rest <;> rfl
      · simp only [Except.map, movedRest, collectParts_map]
        cases collectParts [] rest <;> rfl

/-!
## Lists
-/

theorem collectList_map (taken : SelectorList) (ts : List Token) :
    collectList taken (ts.map (moved n)) = collectList taken ts := by
  induction hlength : ts.length using Nat.strongRecOn generalizing taken ts with
  | ind length ih =>
    rw [collectList_eq, collectList_eq taken ts, readComplex_map]
    cases hcomplex : readComplex ts with
    | error e => rfl
    | ok found =>
        rcases found with ⟨c, rest⟩
        have hlt := readComplex_length hcomplex
        simp only [Except.map, movedRest, skipSpace_map]
        cases hrest : skipSpace rest with
        | nil => rfl
        | cons t after =>
            have hle := skipSpace_length_le rest
            simp only [List.map_cons, moved_kind, moved_raw, skipSpace_map]
            cases hafter : skipSpace after with
            | nil => rfl
            | cons next more =>
                have hle' := skipSpace_length_le after
                rw [hrest, List.length_cons] at hle
                rw [hafter] at hle'
                simp only [List.map_cons]
                rw [← List.map_cons, ih _ (by omega) _ _ rfl]

end Selector

theorem SelectorList.ofTokens_map (n : Nat) (ts : List Token) :
    SelectorList.ofTokens (ts.map (moved n)) = SelectorList.ofTokens ts := by
  rw [SelectorList.ofTokens, SelectorList.ofTokens, body_map, Simple.skipSpace_map]
  cases Simple.skipSpace (body ts) with
  | nil => rfl
  | cons t rest => exact Selector.collectList_map n [] (t :: rest)

end StyleTrim
