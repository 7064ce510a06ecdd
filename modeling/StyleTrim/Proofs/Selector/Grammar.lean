import Mathlib.Data.List.Chain
import Mathlib.Data.List.TakeWhile
import StyleTrim.Proofs.Selector.Spacing

/-!
# The grammar of selectors

`Spells` tells with which tokens a simple selector is written, and the relations built on it do so
for compound selectors, complex ones and lists. They say nothing of how tokens are read. The readers
accept exactly what the grammar writes, and find the selectors it was written for.
-/

namespace StyleTrim
namespace Grammar

open Token Simple Selector

/-!
## Simple selectors
-/

def IsGap (gap : List Token) : Prop :=
  ∀ w ∈ gap, w.kind = .whitespace

/-- A namespace in front of a name: nothing, a bar alone, or a name and a bar. -/
inductive Prefix : List Token -> Prop where
  | nothing : Prefix []
  | bar {bar : Token} (hbar : isBar bar = true) : Prefix [bar]
  | named {ns bar : Token} (hspace : isElement ns = true) (hbar : isBar bar = true) :
      Prefix [ns, bar]

def elementOf (t : Token) : Simple :=
  if t.kind = .ident then .element t.value else .universal

inductive SpellsOperator : List Token -> AttributeOperator -> Prop where
  | equals {eq : Token} (heq : eq.isDelim 0x3D = true) : SpellsOperator [eq] .equals
  | signed {sign eq : Token} {op : AttributeOperator} (hkind : sign.kind = .delim)
      (hop : operatorOf? sign.value = some op) (heq : eq.isDelim 0x3D = true) :
      SpellsOperator [sign, eq] op

/-- The mark for the case of the value, which may be left out. -/
inductive CaseMark : List Token -> Prop where
  | nothing : CaseMark []
  | mark {mark : Token} {gap : List Token} (hmark : isCaseMark mark = true) (hgap : IsGap gap) :
      CaseMark (mark :: gap)

/-- What stands behind the name of an attribute, up to the closing bracket. -/
inductive SpellsTest : List Token -> Option (AttributeOperator × Bytes) -> Prop where
  | nothing : SpellsTest [] none
  | test {op gap gap' mark : List Token} {value : Token} {operator : AttributeOperator}
      (hop : SpellsOperator op operator) (hgap : IsGap gap) (hvalue : isAttributeValue value = true)
      (hgap' : IsGap gap') (hmark : CaseMark mark) :
      SpellsTest (op ++ (gap ++ value :: (gap' ++ mark))) (some (operator, value.value))

/-- The tokens close as many parentheses as they open, and `depth` more; the parenthesis that would
close another one is not among them. -/
inductive Closes : Nat -> List Token -> Prop where
  | done : Closes 0 []
  | inner {depth : Nat} {t : Token} {ts : List Token}
      (hopen : t.kind = .function ∨ t.kind = .leftParen) (hmore : Closes (depth + 1) ts) :
      Closes depth (t :: ts)
  | outer {depth : Nat} {t : Token} {ts : List Token} (hclose : t.kind = .rightParen)
      (hmore : Closes depth ts) : Closes (depth + 1) (t :: ts)
  | other {depth : Nat} {t : Token} {ts : List Token}
      (hplain : ¬(t.kind = .function ∨ t.kind = .leftParen) ∧ t.kind ≠ .rightParen)
      (hmore : Closes depth ts) : Closes depth (t :: ts)

def textOf (ts : List Token) : Bytes :=
  ts.flatMap Token.raw

def pseudoOf (doubled : Bool) (name : Bytes) : Simple :=
  if doubled || isLegacyPseudoElement name then .pseudoElement name [] else .pseudoClass name []

def functionOf (doubled : Bool) (name argument : Bytes) : Simple :=
  if doubled then .pseudoElement name argument else .pseudoClass name argument

inductive Colons : Bool -> List Token -> Prop where
  | one {colon : Token} (hcolon : colon.kind = .colon) : Colons false [colon]
  | two {colon colon' : Token} (hcolon : colon.kind = .colon) (hcolon' : colon'.kind = .colon) :
      Colons true [colon, colon']

/-- The simple selectors, each with the tokens it is written with. -/
inductive Spells : List Token -> Simple -> Prop where
  | element {front : List Token} {name : Token} (hns : Prefix front)
      (hname : isElement name = true) : Spells (front ++ [name]) (elementOf name)
  | nesting {sign : Token} (hsign : sign.isDelim 0x26 = true) : Spells [sign] .nesting
  | className {point name : Token} (hpoint : point.isDelim 0x2E = true)
      (hname : name.kind = .ident) : Spells [point, name] (.className name.value)
  | id {t : Token} (hkind : t.kind = .hash) : Spells [t] (.id t.value)
  | brackets {bracket name close : Token} {gap front gap' test : List Token}
      {meaning : Option (AttributeOperator × Bytes)} (hbracket : bracket.kind = .leftBracket)
      (hgap : IsGap gap) (hns : Prefix front) (hname : name.kind = .ident)
      (hgap' : IsGap gap') (htest : SpellsTest test meaning) (hclose : close.kind = .rightBracket) :
      Spells (bracket :: (gap ++ (front ++ name :: (gap' ++ (test ++ [close])))))
        (.attribute name.value meaning)
  | pseudo {doubled : Bool} {colons : List Token} {name : Token} (hcolons : Colons doubled colons)
      (hname : name.kind = .ident) : Spells (colons ++ [name]) (pseudoOf doubled name.value)
  | function {doubled : Bool} {colons argument : List Token} {name close : Token}
      (hcolons : Colons doubled colons) (hname : name.kind = .function)
      (hargument : Closes 0 argument) (hclose : close.kind = .rightParen) :
      Spells (colons ++ name :: (argument ++ [close]))
        (functionOf doubled name.value (textOf argument))

/-!
## What the readers skip
-/

variable {t : Token} {ts rest gap : List Token} {s : Simple}

theorem exists_gap (ts : List Token) : ∃ gap, IsGap gap ∧ ts = gap ++ skipSpace ts := by
  refine ⟨ts.takeWhile fun t => t.kind == .whitespace, ?_, ?_⟩
  · intro w hw
    simpa using List.mem_takeWhile_imp hw
  · exact List.takeWhile_append_dropWhile.symm

theorem skipSpace_of_gap (h : IsGap gap) (ts : List Token) :
    skipSpace (gap ++ ts) = skipSpace ts :=
  List.dropWhile_append_of_pos fun w hw => by simpa using h w hw

theorem skipSpace_front (h : IsGap gap) (ht : t.kind ≠ .whitespace) (ts : List Token) :
    skipSpace (gap ++ t :: ts) = t :: ts := by
  rw [skipSpace_of_gap h, skipSpace_visible ts ht]

theorem kind_of_isDelim {b : UInt8} (h : t.isDelim b = true) : t.kind = .delim := by
  simp only [Token.isDelim, Bool.and_eq_true, beq_iff_eq] at h
  exact h.1

theorem isElement_cases (h : isElement t = true) : t.kind = .ident ∨ t.isDelim 0x2A = true := by
  simpa [isElement] using h

theorem not_isBar_of_isElement (h : isElement t = true) : isBar t = false := by
  rw [Bool.eq_false_iff]
  intro hbar
  simp only [isBar, Token.isDelim, Bool.and_eq_true, beq_iff_eq] at hbar
  simp [isElement, Token.isDelim, hbar.1, hbar.2] at h

/-!
## Elements
-/

theorem readElementName_eq (t : Token) (ts : List Token) :
    readElementName (t :: ts) =
      if isElement t then .ok (elementOf t, ts) else .error .elementName := by
  rw [readElementName, isElement, elementOf]
  by_cases hident : t.kind = .ident
  · simp [hident]
  · simp [hident]

theorem readElement_spells
    (hread : readElementName (dropElementNamespace (t :: ts)) = .ok (s, rest)) :
    ∃ front name, t :: ts = (front ++ [name]) ++ rest ∧ Prefix front ∧ isElement name = true ∧
      s = elementOf name ∧ (front = [] -> qualified isElement rest = false) := by
  have hname : ∀ {us : List Token}, readElementName us = .ok (s, rest) ->
      ∃ name, us = name :: rest ∧ isElement name = true ∧ s = elementOf name := by
    intro us hus
    cases us with
    | nil => cases hus
    | cons u us =>
        rw [readElementName_eq] at hus
        split at hus
        · cases hus
          exact ⟨u, rfl, by assumption, rfl⟩
        · cases hus
  rw [dropElementNamespace_eq] at hread
  split at hread
  · rename_i hbar
    rcases hname hread with ⟨name, rfl, helement, hs⟩
    exact ⟨[t], name, rfl, .bar hbar, helement, hs, by simp⟩
  · split at hread
    · rename_i hnamed
      rw [Bool.and_eq_true] at hnamed
      rcases ts with _ | ⟨bar, us⟩
      · cases hnamed.2
      · rcases hname hread with ⟨name, hus, helement, hs⟩
        rw [List.tail_cons] at hus
        subst hus
        rw [qualified, Bool.and_eq_true] at hnamed
        exact ⟨[t, bar], name, rfl, .named hnamed.1 hnamed.2.1, helement, hs, by simp⟩
    · rename_i hbar hnot
      rcases hname hread with ⟨name, hus, helement, hs⟩
      rcases List.cons.inj hus with ⟨rfl, rfl⟩
      refine ⟨[], t, rfl, .nothing, helement, hs, fun _ => ?_⟩
      simpa [helement] using hnot

theorem readElement_of_spells {front : List Token} {name : Token} (hns : Prefix front)
    (hname : isElement name = true) (hstop : front = [] -> qualified isElement rest = false) :
    readElementName (dropElementNamespace (front ++ name :: rest)) =
      .ok (elementOf name, rest) := by
  have hread : readElementName (name :: rest) = .ok (elementOf name, rest) := by
    rw [readElementName_eq, if_pos hname]
  cases hns with
  | nothing =>
      rw [List.nil_append, dropElementNamespace_eq, not_isBar_of_isElement hname, hstop rfl]
      simpa using hread
  | bar hbar =>
      rw [List.cons_append, dropElementNamespace_eq, if_pos hbar]
      exact hread
  | named hspace hbar =>
      rw [List.cons_append, List.cons_append, dropElementNamespace_eq,
        not_isBar_of_isElement hspace, hspace, qualified, hbar]
      simpa [named, hname] using hread

/-!
## Attributes
-/

theorem readOperator_spells {op : AttributeOperator} (h : readOperator ts = .ok (op, rest)) :
    ∃ sign, ts = sign ++ rest ∧ SpellsOperator sign op := by
  cases ts with
  | nil => cases h
  | cons t ts =>
      rw [readOperator_eq] at h
      split at h
      · cases h
      · rename_i hkind
        rw [not_not] at hkind
        split at h
        · rename_i hvalue
          cases h
          exact ⟨[t], rfl, .equals (by simp [Token.isDelim, hkind, hvalue])⟩
        · split at h
          · cases h
          · rename_i op' hop
            split at h
            · rename_i heq
              cases ts with
              | nil => cases heq
              | cons eq us =>
                  cases h
                  exact ⟨[t, eq], rfl, .signed hkind hop heq⟩
            · cases h

theorem readOperator_of_spells {op : List Token} {operator : AttributeOperator}
    (h : SpellsOperator op operator) (rest : List Token) :
    readOperator (op ++ rest) = .ok (operator, rest) := by
  cases h with
  | equals heq =>
      simp only [Token.isDelim, Bool.and_eq_true, beq_iff_eq] at heq
      simp [readOperator_eq, heq.1, heq.2]
  | signed hkind hop heq =>
      have hne : ∀ sign, operatorOf? sign = some operator -> sign ≠ [0x3D] := by
        rintro sign hsign rfl
        cases hsign
      simp [readOperator_eq, hkind, hne _ hop, hop, named, isEquals, heq]

theorem skipSpace_spells (ts : List Token) :
    ∃ gap us, IsGap gap ∧ ts = gap ++ us ∧ skipSpace ts = us := by
  rcases exists_gap ts with ⟨gap, hgap, hts⟩
  exact ⟨gap, skipSpace ts, hgap, hts, rfl⟩

theorem closeAttribute_spells {s' : Simple}
    (h : closeAttribute s' (dropCaseMark ts) = .ok (s, rest)) :
    ∃ mark close, ts = mark ++ close :: rest ∧ CaseMark mark ∧ close.kind = .rightBracket ∧
      s = s' := by
  have hclose : ∀ {us : List Token}, closeAttribute s' us = .ok (s, rest) ->
      ∃ close, us = close :: rest ∧ close.kind = .rightBracket ∧ s = s' := by
    intro us hus
    cases us with
    | nil => cases hus
    | cons u us =>
        rw [closeAttribute] at hus
        split at hus
        · cases hus
          exact ⟨u, rfl, by assumption, rfl⟩
        · cases hus
  cases ts with
  | nil => cases h
  | cons t ts =>
      rw [dropCaseMark] at h
      split at h
      · rename_i hmark
        rcases hclose h with ⟨close, hus, hkind, hs⟩
        rcases skipSpace_spells ts with ⟨gap, us, hgap, rfl, hskip⟩
        rw [hskip] at hus
        subst hus
        exact ⟨t :: gap, close, rfl, .mark hmark hgap, hkind, hs⟩
      · rcases hclose h with ⟨close, hus, hkind, hs⟩
        exact ⟨[], close, hus, .nothing, hkind, hs⟩

theorem not_isCaseMark_of_close {close : Token} (h : close.kind = .rightBracket) :
    isCaseMark close = false := by
  simp [isCaseMark, h]

theorem closeAttribute_of_spells {mark : List Token} {close : Token} (hmark : CaseMark mark)
    (hclose : close.kind = .rightBracket) (s : Simple) (rest : List Token) :
    closeAttribute s (dropCaseMark (mark ++ close :: rest)) = .ok (s, rest) := by
  have hspace : close.kind ≠ .whitespace := by simp [hclose]
  cases hmark with
  | nothing =>
      rw [List.nil_append, dropCaseMark, not_isCaseMark_of_close hclose, if_neg Bool.false_ne_true,
        closeAttribute, if_pos hclose]
  | mark hmark hgap =>
      rw [List.cons_append, dropCaseMark, if_pos hmark, skipSpace_front hgap hspace, closeAttribute,
        if_pos hclose]

theorem isAttributeValue_kind (h : isAttributeValue t = true) :
    t.kind = .string ∨ t.kind = .ident ∨ t.kind = .number ∨ t.kind = .dimension := by
  simpa [isAttributeValue, or_assoc] using h

theorem readAttributeTest_spells {name : Bytes}
    (h : readAttributeTest name ts = .ok (s, rest)) :
    ∃ test close meaning, ts = test ++ close :: rest ∧ SpellsTest test meaning ∧
      close.kind = .rightBracket ∧ s = .attribute name meaning := by
  cases ts with
  | nil => cases h
  | cons t ts =>
      rw [readAttributeTest] at h
      split at h
      · rename_i hclose
        cases h
        exact ⟨[], t, none, rfl, .nothing, hclose, rfl⟩
      · split at h
        · cases h
        · rename_i op after hop
          rcases readOperator_spells hop with ⟨sign, hts, hsign⟩
          rcases skipSpace_spells after with ⟨gap, us, hgap, rfl, hskip⟩
          rw [hskip] at h
          cases us with
          | nil => cases h
          | cons value us =>
              rw [readAttributeValue] at h
              split at h
              · rename_i hvalue
                rcases skipSpace_spells us with ⟨gap', vs, hgap', rfl, hskip'⟩
                rw [hskip'] at h
                rcases closeAttribute_spells h with ⟨mark, close, rfl, hmark, hclose, hs⟩
                refine ⟨_, close, _, ?_, .test hsign hgap hvalue hgap' hmark, hclose, hs⟩
                rw [hts]
                simp
              · cases h

theorem readAttributeTest_of_spells {test : List Token} {close : Token}
    {meaning : Option (AttributeOperator × Bytes)} (htest : SpellsTest test meaning)
    (hclose : close.kind = .rightBracket) (name : Bytes) (rest : List Token) :
    readAttributeTest name (test ++ close :: rest) = .ok (.attribute name meaning, rest) := by
  cases htest with
  | nothing => rw [List.nil_append, readAttributeTest, if_pos hclose]
  | test hop hgap hvalue hgap' hmark =>
      rename_i op gap gap' mark value operator
      have hvisible : value.kind ≠ .whitespace := by
        rcases isAttributeValue_kind hvalue with hkind | hkind | hkind | hkind <;> simp [hkind]
      have hread : readOperator (op ++ (gap ++ value :: (gap' ++ (mark ++ close :: rest)))) =
          .ok (operator, gap ++ value :: (gap' ++ (mark ++ close :: rest))) :=
        readOperator_of_spells hop _
      have hmore : readAttributeValue name operator (value :: (gap' ++ (mark ++ close :: rest))) =
          .ok (.attribute name (some (operator, value.value)), rest) := by
        have hskip : skipSpace (mark ++ close :: rest) = mark ++ close :: rest := by
          cases hmark with
          | nothing => exact skipSpace_visible rest (by simp [hclose])
          | mark hmark _ =>
              refine skipSpace_visible _ ?_
              simp only [isCaseMark, Bool.and_eq_true, beq_iff_eq] at hmark
              simp [hmark.1]
        rw [readAttributeValue, if_pos hvalue, skipSpace_of_gap hgap', hskip]
        exact closeAttribute_of_spells hmark hclose _ rest
      have hfront : ∃ sign more, op = sign :: more ∧ sign.kind ≠ .rightBracket := by
        cases hop with
        | equals heq => exact ⟨_, _, rfl, by simp [kind_of_isDelim heq]⟩
        | signed hkind _ _ => exact ⟨_, _, rfl, by simp [hkind]⟩
      rcases hfront with ⟨sign, more, rfl, hsign⟩
      simp only [List.append_assoc, List.cons_append] at hread ⊢
      rw [readAttributeTest, if_neg hsign, hread]
      dsimp only
      rw [skipSpace_front hgap hvisible]
      exact hmore

theorem dropAttributeNamespace_spells {name : Token}
    (h : dropAttributeNamespace ts = name :: rest) :
    ∃ front, ts = front ++ name :: rest ∧ Prefix front := by
  cases ts with
  | nil => cases h
  | cons t ts =>
      rw [dropAttributeNamespace_eq] at h
      split at h
      · rename_i hbar
        rw [Bool.and_eq_true] at hbar
        exact ⟨[t], by rw [h]; rfl, .bar hbar.1⟩
      · split at h
        · rename_i hnamed
          rw [Bool.and_eq_true] at hnamed
          cases ts with
          | nil => cases h
          | cons bar us =>
              rw [List.tail_cons] at h
              rw [qualified, Bool.and_eq_true] at hnamed
              exact ⟨[t, bar], by rw [h]; rfl, .named hnamed.1 hnamed.2.1⟩
        · exact ⟨[], h, .nothing⟩

theorem dropAttributeNamespace_of_spells {front : List Token} {name : Token}
    (hns : Prefix front) (hname : name.kind = .ident)
    (hstop : qualified (fun t => t.kind == .ident) rest = false) :
    dropAttributeNamespace (front ++ name :: rest) = name :: rest := by
  have hbar : isBar name = false := not_isBar_of_isElement (by simp [isElement, hname])
  cases hns with
  | nothing => simp [dropAttributeNamespace_eq, hbar, hstop]
  | bar hfront => simp [dropAttributeNamespace_eq, hfront, named, hname]
  | named hspace hfront =>
      simp [dropAttributeNamespace_eq, not_isBar_of_isElement hspace, hspace, qualified, hfront,
        named, hname]

theorem not_qualified_of_test {gap test : List Token} {close : Token}
    {meaning : Option (AttributeOperator × Bytes)} (hgap : IsGap gap)
    (htest : SpellsTest test meaning) (hclose : close.kind = .rightBracket) (rest : List Token) :
    qualified (fun t => t.kind == .ident) (gap ++ (test ++ close :: rest)) = false := by
  have hkind : ∀ {t : Token}, t.kind ≠ .delim -> isBar t = false := by
    intro t ht
    simp [isBar, Token.isDelim, ht]
  cases gap with
  | cons w gap =>
      have hw := hkind (t := w) (by simp [hgap w List.mem_cons_self])
      simp [qualified, hw]
  | nil =>
      cases htest with
      | nothing => simp [qualified, hkind (t := close) (by simp [hclose])]
      | test hop _ _ _ _ =>
          cases hop with
          | equals heq =>
              have hbar : ∀ {t : Token}, t.isDelim 0x3D = true -> isBar t = false := by
                intro t ht
                simp only [Token.isDelim, Bool.and_eq_true, beq_iff_eq] at ht
                simp [isBar, Token.isDelim, ht.2]
              simp [qualified, hbar heq]
          | signed _ _ heq => simp [qualified, named, kind_of_isDelim heq]

theorem readAttribute_spells (hbracket : t.kind = .leftBracket)
    (h : readAttribute ts = .ok (s, rest)) : ∃ run, t :: ts = run ++ rest ∧ Spells run s := by
  rw [readAttribute] at h
  rcases skipSpace_spells ts with ⟨gap, us, hgap, rfl, hskip⟩
  rw [hskip] at h
  split at h
  · cases h
  · rename_i name more hdrop
    split at h
    · rename_i hname
      rcases dropAttributeNamespace_spells hdrop with ⟨front, rfl, hns⟩
      rcases skipSpace_spells more with ⟨gap', vs, hgap', rfl, hskip'⟩
      rw [hskip'] at h
      rcases readAttributeTest_spells h with ⟨test, close, meaning, rfl, htest, hclose, rfl⟩
      refine ⟨_, ?_, .brackets hbracket hgap hns hname hgap' htest hclose⟩
      simp
    · cases h

theorem readAttribute_of_spells {name close : Token} {front gap' test : List Token}
    {meaning : Option (AttributeOperator × Bytes)} (hgap : IsGap gap) (hns : Prefix front)
    (hname : name.kind = .ident) (hgap' : IsGap gap') (htest : SpellsTest test meaning)
    (hclose : close.kind = .rightBracket) (rest : List Token) :
    readAttribute (gap ++ (front ++ name :: (gap' ++ (test ++ close :: rest)))) =
      .ok (.attribute name.value meaning, rest) := by
  have hskip : skipSpace (front ++ name :: (gap' ++ (test ++ close :: rest))) =
      front ++ name :: (gap' ++ (test ++ close :: rest)) := by
    cases hns with
    | nothing => exact skipSpace_visible _ (by simp [hname])
    | bar hbar => exact skipSpace_visible _ (by simp [kind_of_isDelim hbar])
    | named hspace _ =>
        refine skipSpace_visible _ ?_
        rcases isElement_cases hspace with hkind | hdelim
        · simp [hkind]
        · simp [kind_of_isDelim hdelim]
  have hskip' : skipSpace (gap' ++ (test ++ close :: rest)) = test ++ close :: rest := by
    rw [skipSpace_of_gap hgap']
    cases htest with
    | nothing => exact skipSpace_visible _ (by simp [hclose])
    | test hop _ _ _ _ =>
        cases hop with
        | equals heq => exact skipSpace_visible _ (by simp [kind_of_isDelim heq])
        | signed hkind _ _ => exact skipSpace_visible _ (by simp [hkind])
  rw [readAttribute, skipSpace_of_gap hgap, hskip,
    dropAttributeNamespace_of_spells hns hname (not_qualified_of_test hgap' htest hclose rest)]
  dsimp only
  rw [if_pos hname, hskip']
  exact readAttributeTest_of_spells htest hclose _ rest

/-!
## Pseudo-classes
-/

theorem readArgument_spells {depth : Nat} {argument : Bytes}
    (h : readArgument depth ts = some (argument, rest)) :
    ∃ inside close, ts = inside ++ close :: rest ∧ Closes depth inside ∧
      close.kind = .rightParen ∧ argument = textOf inside := by
  induction ts generalizing depth argument with
  | nil => cases h
  | cons t ts ih =>
      have hmap : ∀ {depth : Nat},
          (readArgument depth ts).map (fun r => (t.raw ++ r.1, r.2)) = some (argument, rest) ->
          ∃ inside close, t :: ts = (t :: inside) ++ close :: rest ∧ Closes depth inside ∧
            close.kind = .rightParen ∧ argument = textOf (t :: inside) := by
        intro depth hd
        rcases Option.map_eq_some_iff.mp hd with ⟨⟨more, after⟩, hread, heq⟩
        cases heq
        rcases ih hread with ⟨inside, close, rfl, hinside, hclose, rfl⟩
        exact ⟨inside, close, rfl, hinside, hclose, rfl⟩
      rw [readArgument_cons] at h
      split at h
      · rename_i hopen
        rcases hmap h with ⟨inside, close, hts, hinside, hclose, hargument⟩
        exact ⟨t :: inside, close, hts, .inner hopen hinside, hclose, hargument⟩
      · rename_i hopen
        split at h
        · rename_i hkind
          split at h
          · cases h
            exact ⟨[], t, rfl, .done, hkind, rfl⟩
          · rcases hmap h with ⟨inside, close, hts, hinside, hclose, hargument⟩
            exact ⟨t :: inside, close, hts, .outer hkind hinside, hclose, hargument⟩
        · rename_i hkind
          rcases hmap h with ⟨inside, close, hts, hinside, hclose, hargument⟩
          exact ⟨t :: inside, close, hts, .other ⟨hopen, hkind⟩ hinside, hclose, hargument⟩

theorem readArgument_of_closes {depth : Nat} {inside : List Token} {close : Token}
    (h : Closes depth inside) (hclose : close.kind = .rightParen) (rest : List Token) :
    readArgument depth (inside ++ close :: rest) = some (textOf inside, rest) := by
  induction h with
  | done => simp [readArgument, hclose, textOf]
  | inner hopen hmore ih =>
      rw [List.cons_append, readArgument_cons, if_pos hopen, ih]
      rfl
  | outer hkind hmore ih =>
      rw [List.cons_append, readArgument_cons, if_neg (by simp [hkind]), if_pos hkind]
      dsimp only
      rw [ih]
      rfl
  | other hplain hmore ih =>
      rw [List.cons_append, readArgument_cons, if_neg hplain.1, if_neg hplain.2, ih]
      rfl

theorem readPseudoName_spells {doubled : Bool} {colons : List Token}
    (hcolons : Colons doubled colons) (h : readPseudoName doubled ts = .ok (s, rest)) :
    ∃ run, colons ++ ts = run ++ rest ∧ Spells run s := by
  cases ts with
  | nil => cases h
  | cons t ts =>
      rw [readPseudoName] at h
      split at h
      · rename_i hname
        have hs : s = pseudoOf doubled t.value ∧ rest = ts := by
          rw [pseudoOf]
          split at h <;> rename_i hwhich <;> cases h <;> simp [hwhich]
        rcases hs with ⟨rfl, rfl⟩
        exact ⟨colons ++ [t], by simp, .pseudo hcolons hname⟩
      · split at h
        · rename_i hname
          split at h
          · cases h
          · rename_i argument after hargument
            have hs : s = functionOf doubled t.value argument ∧ rest = after := by
              rw [functionOf]
              split at h <;> rename_i hwhich <;> cases h <;> simp [hwhich]
            rcases hs with ⟨rfl, rfl⟩
            rcases readArgument_spells hargument with ⟨inside, close, rfl, hinside, hclose, rfl⟩
            exact ⟨_, by simp, .function hcolons hname hinside hclose⟩
        · cases h

theorem readPseudo_spells (hcolon : t.kind = .colon) (h : readPseudo ts = .ok (s, rest)) :
    ∃ run, t :: ts = run ++ rest ∧ Spells run s := by
  cases ts with
  | nil => cases h
  | cons u us =>
      rw [readPseudo] at h
      split at h
      · rename_i hcolon'
        exact readPseudoName_spells (.two hcolon hcolon') h
      · exact readPseudoName_spells (.one hcolon) h

theorem readPseudo_of_colons {doubled : Bool} {colons : List Token} (h : Colons doubled colons)
    {name : Token} (hname : name.kind ≠ .colon) (rest : List Token) :
    ∃ colon more, colons = colon :: more ∧ colon.kind = .colon ∧
      readPseudo (more ++ name :: rest) = readPseudoName doubled (name :: rest) := by
  cases h with
  | one hcolon =>
      refine ⟨_, [], rfl, hcolon, ?_⟩
      rw [List.nil_append, readPseudo, if_neg hname]
  | two hcolon hcolon' =>
      rename_i colon colon'
      refine ⟨colon, [colon'], rfl, hcolon, ?_⟩
      rw [List.cons_append, readPseudo, if_pos hcolon']
      rfl

theorem readPseudoName_ident {doubled : Bool} {name : Token} (hname : name.kind = .ident)
    (rest : List Token) :
    readPseudoName doubled (name :: rest) = .ok (pseudoOf doubled name.value, rest) := by
  rw [readPseudoName, if_pos hname, pseudoOf]
  split <;> rfl

theorem readPseudoName_function {doubled : Bool} {name close : Token} {inside : List Token}
    (hname : name.kind = .function) (hinside : Closes 0 inside)
    (hclose : close.kind = .rightParen) (rest : List Token) :
    readPseudoName doubled (name :: (inside ++ close :: rest)) =
      .ok (functionOf doubled name.value (textOf inside), rest) := by
  rw [readPseudoName, if_neg (by simp [hname]), if_pos hname,
    readArgument_of_closes hinside hclose rest, functionOf]
  dsimp only
  split <;> rfl

/-!
## Any simple selector
-/

/-- The selector names an element, or stands for all of them. -/
def namesElement : Simple -> Bool
  | .element _ => true
  | .universal => true
  | _ => false

/-- The run is the name of an element without a namespace. -/
def isBare (run : List Token) : Bool :=
  run.length == 1 && named isElement run

/-- The run begins with a bar. -/
def startsBar (run : List Token) : Bool :=
  named isBar run

theorem namesElement_elementOf (t : Token) : namesElement (elementOf t) = true := by
  rw [elementOf]
  split <;> rfl

theorem Spells.front {run : List Token} (h : Spells run s) :
    ∃ t more, run = t :: more ∧
      ((namesElement s = true ∧ (isElement t = true ∨ isBar t = true)) ∨
        (namesElement s = false ∧ isElement t = false ∧ isBar t = false ∧
          startsCompound t = true)) := by
  have hkind : ∀ {t : Token} {kind : TokenKind}, t.kind = kind -> kind ≠ .ident ->
      kind ≠ .delim -> isElement t = false ∧ isBar t = false := by
    rintro t kind rfl hident hdelim
    simp [isElement, isBar, Token.isDelim, hident, hdelim]
  have hsign : ∀ {t : Token} {b : UInt8}, t.isDelim b = true -> b ≠ 0x2A -> b ≠ 0x7C ->
      isElement t = false ∧ isBar t = false := by
    intro t b ht hstar hbar
    simp only [Token.isDelim, Bool.and_eq_true, beq_iff_eq] at ht
    simp [isElement, isBar, Token.isDelim, ht.1, ht.2, hstar, hbar]
  have hcolons : ∀ {doubled : Bool} {colons : List Token}, Colons doubled colons ->
      ∃ t more, colons = t :: more ∧ isElement t = false ∧ isBar t = false ∧
        startsCompound t = true := by
    intro doubled colons hcolons
    cases hcolons with
    | one hcolon =>
        rcases hkind hcolon (by decide) (by decide) with ⟨helement, hbar⟩
        exact ⟨_, [], rfl, helement, hbar, by simp [startsCompound, hcolon]⟩
    | two hcolon _ =>
        rcases hkind hcolon (by decide) (by decide) with ⟨helement, hbar⟩
        exact ⟨_, _, rfl, helement, hbar, by simp [startsCompound, hcolon]⟩
  cases h with
  | element hns hname =>
      cases hns with
      | nothing => exact ⟨_, [], rfl, Or.inl ⟨namesElement_elementOf _, Or.inl hname⟩⟩
      | bar hbar => exact ⟨_, _, rfl, Or.inl ⟨namesElement_elementOf _, Or.inr hbar⟩⟩
      | named hspace _ => exact ⟨_, _, rfl, Or.inl ⟨namesElement_elementOf _, Or.inl hspace⟩⟩
  | nesting hnesting =>
      rcases hsign hnesting (by decide) (by decide) with ⟨helement, hbar⟩
      exact ⟨_, [], rfl, Or.inr ⟨rfl, helement, hbar, by simp [startsCompound, hnesting]⟩⟩
  | className hpoint _ =>
      rcases hsign hpoint (by decide) (by decide) with ⟨helement, hbar⟩
      exact ⟨_, _, rfl, Or.inr ⟨rfl, helement, hbar, by simp [startsCompound, hpoint]⟩⟩
  | id hhash =>
      rcases hkind hhash (by decide) (by decide) with ⟨helement, hbar⟩
      exact ⟨_, [], rfl, Or.inr ⟨rfl, helement, hbar, by simp [startsCompound, hhash]⟩⟩
  | brackets hbracket _ _ _ _ _ _ =>
      rcases hkind hbracket (by decide) (by decide) with ⟨helement, hbar⟩
      exact ⟨_, _, rfl, Or.inr ⟨rfl, helement, hbar, by simp [startsCompound, hbracket]⟩⟩
  | pseudo hcolon _ =>
      rename_i doubled colons name _
      rcases hcolons hcolon with ⟨t, more, rfl, helement, hbar, hstarts⟩
      refine ⟨t, _, rfl, Or.inr ⟨?_, helement, hbar, hstarts⟩⟩
      rw [pseudoOf]
      split <;> rfl
  | function hcolon _ _ _ =>
      rename_i doubled colons argument name close _ _ _
      rcases hcolons hcolon with ⟨t, more, rfl, helement, hbar, hstarts⟩
      refine ⟨t, _, rfl, Or.inr ⟨?_, helement, hbar, hstarts⟩⟩
      rw [functionOf]
      split <;> rfl

theorem Spells.startsCompound {run : List Token} (h : Spells run s) :
    ∃ t more, run = t :: more ∧ startsCompound t = true := by
  rcases h.front with ⟨t, more, rfl, ⟨_, hbegin⟩ | ⟨_, _, _, hstarts⟩⟩
  · refine ⟨t, more, rfl, ?_⟩
    rcases hbegin with helement | hbar
    · rcases isElement_cases helement with hident | hstar
      · simp [Selector.startsCompound, hident]
      · simp [Selector.startsCompound, hstar]
    · rw [isBar] at hbar
      simp [Selector.startsCompound, hbar]
  · exact ⟨t, more, rfl, hstarts⟩

theorem Spells.namesElement_of_isBare {run : List Token} (h : Spells run s)
    (hbare : isBare run = true) : namesElement s = true := by
  rcases h.front with ⟨t, more, rfl, ⟨hnames, _⟩ | ⟨_, helement, _⟩⟩
  · exact hnames
  · simp [isBare, named, helement] at hbare

theorem Spells.namesElement_of_startsBar {run : List Token} {s : Simple} (h : Spells run s)
    (hbar : startsBar run = true) : namesElement s = true := by
  rcases h.front with ⟨t, more, rfl, ⟨hnames, _⟩ | ⟨_, _, hplain, _⟩⟩
  · exact hnames
  · rw [startsBar, named, hplain] at hbar
    cases hbar

theorem read?_eq_none_iff {last : Option Simple} :
    read? last t ts = none ↔ startsCompound t = false := by
  constructor
  · intro h
    unfold read? at h
    split at h
    · split at h <;> cases h
    · rename_i hbegin
      simp only [isElement, isBar, Bool.or_eq_true, beq_iff_eq, not_or] at hbegin
      split at h
      · cases h
      · rename_i hsign
        split at h
        · cases h
        · rename_i hpoint
          split at h
          · cases h
          · rename_i hhash
            split at h
            · cases h
            · rename_i hbracket
              split at h
              · cases h
              · rename_i hcolon
                simp [Selector.startsCompound, hbegin, hsign, hpoint, hhash, hbracket, hcolon]
  · intro h
    simp only [Selector.startsCompound, Bool.or_eq_false_iff, beq_eq_false_iff_ne] at h
    rcases h with ⟨⟨⟨⟨⟨⟨⟨hident, hhash⟩, hbracket⟩, hcolon⟩, hpoint⟩, hstar⟩, hsign⟩, hbar⟩
    simp [read?, isElement, isBar, hident, hhash, hbracket, hcolon, hpoint, hstar, hsign, hbar]

theorem readElement_keeps {last : Option Simple} (hguard : (isBar t || allowsElement last) = true)
    (hread : readElementName (dropElementNamespace (t :: ts)) = .ok (s, rest)) :
    ∃ run, t :: ts = run ++ rest ∧ Spells run s ∧
      (namesElement s = true -> startsBar run = true ∨ allowsElement last = true) ∧
      (isBare run = true -> qualified isElement rest = false) := by
  rcases readElement_spells hread with ⟨front, name, hts, hns, hname, rfl, hstop⟩
  refine ⟨front ++ [name], hts, .element hns hname, fun _ => ?_, fun hbare => ?_⟩
  · rcases Bool.or_eq_true_iff.mp hguard with hbar | hallows
    · left
      cases front with
      | nil =>
          rw [List.nil_append, List.singleton_append] at hts
          rw [(List.cons.inj hts).1, not_isBar_of_isElement hname] at hbar
          cases hbar
      | cons u more =>
          rw [List.cons_append, List.cons_append] at hts
          rw [(List.cons.inj hts).1] at hbar
          exact hbar
    · exact Or.inr hallows
  · apply hstop
    rw [isBare, Bool.and_eq_true, beq_iff_eq] at hbare
    simpa using hbare.1

theorem Spells.not_element {run : List Token} (h : Spells run s) (hts : t :: ts = run ++ rest)
    (helement : isElement t = false) (hbar : isBar t = false) :
    namesElement s = false ∧ isBare run = false := by
  rcases h.front with ⟨u, more, rfl, ⟨_, hbegin⟩ | ⟨hnames, _⟩⟩
  · rw [List.cons_append] at hts
    rw [← (List.cons.inj hts).1, helement, hbar] at hbegin
    simp at hbegin
  · refine ⟨hnames, ?_⟩
    rw [Bool.eq_false_iff]
    intro hbare
    rw [h.namesElement_of_isBare hbare] at hnames
    cases hnames

theorem read?_spells {last : Option Simple} (h : read? last t ts = some (.ok (s, rest))) :
    ∃ run, t :: ts = run ++ rest ∧ Spells run s ∧
      (namesElement s = true -> startsBar run = true ∨ allowsElement last = true) ∧
      (isBare run = true -> qualified isElement rest = false) := by
  unfold read? at h
  split at h
  · split at h
    · rename_i hguard
      exact readElement_keeps hguard (Option.some.inj h)
    · cases h
  · rename_i hbegin
    simp only [Bool.or_eq_true, not_or, Bool.not_eq_true] at hbegin
    have hspells : ∃ run, t :: ts = run ++ rest ∧ Spells run s := by
      split at h
      · rename_i hsign
        cases h
        exact ⟨[t], rfl, .nesting hsign⟩
      · split at h
        · rename_i hpoint
          have hread := Option.some.inj h
          cases ts with
          | nil => cases hread
          | cons name us =>
              rw [readClassName] at hread
              split at hread
              · rename_i hname
                cases hread
                exact ⟨[t, name], rfl, .className hpoint hname⟩
              · cases hread
        · split at h
          · rename_i hhash
            cases h
            exact ⟨[t], rfl, .id hhash⟩
          · split at h
            · rename_i hbracket
              exact readAttribute_spells hbracket (Option.some.inj h)
            · split at h
              · rename_i hcolon
                exact readPseudo_spells hcolon (Option.some.inj h)
              · cases h
    rcases hspells with ⟨run, hts, hspells⟩
    rcases hspells.not_element hts hbegin.1 hbegin.2 with ⟨hnames, hbare⟩
    refine ⟨run, hts, hspells, ?_, ?_⟩
    · intro hyes
      rw [hnames] at hyes
      cases hyes
    · intro hyes
      rw [hbare] at hyes
      cases hyes

theorem read?_begin {last : Option Simple} (hbegin : isElement t = true ∨ isBar t = true)
    (hallowed : isBar t = true ∨ allowsElement last = true) (ts : List Token) :
    read? last t ts = some (readElementName (dropElementNamespace (t :: ts))) := by
  rw [read?, if_pos (Bool.or_eq_true_iff.mpr hbegin), if_pos (Bool.or_eq_true_iff.mpr hallowed)]

theorem read?_colon {last : Option Simple} (h : t.kind = .colon) (ts : List Token) :
    read? last t ts = some (readPseudo ts) := by
  simp [read?, isElement, isBar, Token.isDelim, h]

theorem read?_of_spells {last : Option Simple} {run : List Token} (h : Spells run s)
    (hguard : namesElement s = true -> startsBar run = true ∨ allowsElement last = true)
    (hstop : isBare run = true -> qualified isElement rest = false) :
    ∃ t more, run = t :: more ∧ read? last t (more ++ rest) = some (.ok (s, rest)) := by
  cases h with
  | element hns hname =>
      rename_i front name
      have hread : readElementName (dropElementNamespace (front ++ name :: rest)) =
          .ok (elementOf name, rest) := by
        apply readElement_of_spells hns hname
        rintro rfl
        exact hstop (by simp [isBare, named, hname])
      have hallows := hguard (namesElement_elementOf name)
      cases hns with
      | nothing =>
          have hbegin := read?_begin (Or.inl hname) hallows rest
          exact ⟨name, [], rfl, hbegin.trans (by rw [← hread]; rfl)⟩
      | bar hbar =>
          refine ⟨_, [name], rfl, (read?_begin (Or.inr hbar) hallows _).trans ?_⟩
          rw [← hread]
          rfl
      | named hspace hbar =>
          refine ⟨_, [_, name], rfl, (read?_begin (Or.inl hspace) hallows _).trans ?_⟩
          rw [← hread]
          rfl
  | nesting hsign =>
      simp only [Token.isDelim, Bool.and_eq_true, beq_iff_eq] at hsign
      exact ⟨_, [], rfl, by simp [read?, isElement, isBar, Token.isDelim, hsign.1, hsign.2]⟩
  | className hpoint hname =>
      simp only [Token.isDelim, Bool.and_eq_true, beq_iff_eq] at hpoint
      exact ⟨_, _, rfl, by
        simp [read?, isElement, isBar, Token.isDelim, hpoint.1, hpoint.2, readClassName, hname]⟩
  | id hhash =>
      exact ⟨_, [], rfl, by simp [read?, isElement, isBar, Token.isDelim, hhash]⟩
  | brackets hbracket hgap hns hname hgap' htest hclose =>
      have hread := readAttribute_of_spells hgap hns hname hgap' htest hclose rest
      refine ⟨_, _, rfl, ?_⟩
      simp [read?, isElement, isBar, Token.isDelim, hbracket, hread]
  | pseudo hcolons hname =>
      rename_i doubled colons name
      have hcolon : name.kind ≠ .colon := by simp [hname]
      rcases readPseudo_of_colons hcolons hcolon rest with ⟨colon, more, rfl, hcolon, hread⟩
      refine ⟨colon, more ++ [name], rfl, ?_⟩
      rw [read?_colon hcolon, List.append_assoc, List.singleton_append, hread,
        readPseudoName_ident hname]
  | function hcolons hname hinside hclose =>
      rename_i doubled colons inside name close
      have hcolon : name.kind ≠ .colon := by simp [hname]
      rcases readPseudo_of_colons hcolons hcolon (inside ++ close :: rest) with
        ⟨colon, more, rfl, hcolon, hread⟩
      refine ⟨colon, more ++ name :: (inside ++ [close]), rfl, ?_⟩
      rw [read?_colon hcolon]
      simp only [List.append_assoc, List.cons_append, List.nil_append]
      rw [hread, readPseudoName_function hname hinside hclose]

/-!
## Compound selectors
-/

/-- A simple selector with the tokens that write it. -/
structure Run where
  tokens : List Token
  simple : Simple
  spells : Spells tokens simple

/-- The run `b` may stand behind the run `a`. An element stands behind the nesting sign, or begins
with a bar; and a bar does not stand behind a name that it would make a namespace. -/
structure Run.Fits (a b : Run) : Prop where
  element : namesElement b.simple = true -> startsBar b.tokens = true ∨ a.simple = .nesting
  bar : startsBar b.tokens = true -> isBare a.tokens = false

def tokensOf (runs : List Run) : List Token :=
  runs.flatMap Run.tokens

def simplesOf (runs : List Run) : Compound :=
  runs.map Run.simple

@[simp] theorem tokensOf_nil : tokensOf [] = [] :=
  rfl

@[simp] theorem tokensOf_cons (run : Run) (runs : List Run) :
    tokensOf (run :: runs) = run.tokens ++ tokensOf runs :=
  rfl

@[simp] theorem tokensOf_append (runs more : List Run) :
    tokensOf (runs ++ more) = tokensOf runs ++ tokensOf more :=
  List.flatMap_append

@[simp] theorem simplesOf_nil : simplesOf [] = [] :=
  rfl

@[simp] theorem simplesOf_cons (run : Run) (runs : List Run) :
    simplesOf (run :: runs) = run.simple :: simplesOf runs :=
  rfl

@[simp] theorem simplesOf_append (runs more : List Run) :
    simplesOf (runs ++ more) = simplesOf runs ++ simplesOf more :=
  List.map_append

/-- The runs write the compound selector. -/
structure Row (runs : List Run) : Prop where
  nonempty : runs ≠ []
  fits : runs.IsChain Run.Fits

def Stops (rest : List Token) : Prop :=
  ∀ t ∈ rest.head?, startsCompound t = false

theorem allowsElement_some (s : Simple) : allowsElement (some s) = true ↔ s = .nesting := by
  cases s <;> simp [allowsElement]

theorem Spells.qualified_of_bar {run : List Token} (h : Spells run s)
    (hbar : startsBar run = true) (rest : List Token) :
    qualified isElement (run ++ rest) = true := by
  have hno : ∀ {t : Token} {more : List Token}, isElement t = true ->
      startsBar (t :: more) = true -> False := by
    intro t more helement hbar
    rw [startsBar, named, not_isBar_of_isElement helement] at hbar
    cases hbar
  rcases h.front with ⟨t, more, hrun, ⟨hnames, _⟩ | ⟨_, _, hplain, _⟩⟩
  · cases h with
    | element hns hname =>
        cases hns with
        | nothing => exact (hno hname hbar).elim
        | bar hfront => simp [qualified, named, hfront, hname]
        | named hspace _ => exact (hno hspace hbar).elim
    | pseudo _ _ =>
        rw [pseudoOf] at hnames
        split at hnames <;> cases hnames
    | function _ _ _ _ =>
        rw [functionOf] at hnames
        split at hnames <;> cases hnames
    | _ => cases hnames
  · rw [hrun, startsBar, named, hplain] at hbar
    cases hbar

theorem not_qualified_of_stops (h : Stops rest) : qualified isElement rest = false := by
  cases rest with
  | nil => rfl
  | cons t rest =>
      have hbar : isBar t = false := by
        have hno := h t rfl
        rw [startsCompound, Bool.or_eq_false_iff] at hno
        exact hno.2
      simp [qualified, hbar]

def Follows (taken : Compound) (runs : List Run) : Prop :=
  ∀ run ∈ runs.head?, namesElement run.simple = true ->
    startsBar run.tokens = true ∨ allowsElement taken.head? = true

theorem collectCompound_runs {taken c : Compound}
    (h : collectCompound taken ts = .ok (c, rest)) :
    ∃ runs, ts = tokensOf runs ++ rest ∧ c = taken.reverse ++ simplesOf runs ∧
      runs.IsChain Run.Fits ∧ Follows taken runs ∧ Stops rest := by
  -- `Follows` carries what the reader knows of the selector in front to the first of the runs.
  induction hn : ts.length using Nat.strongRecOn generalizing taken ts with
  | ind n ih =>
    cases ts with
    | nil =>
        rw [collectCompound] at h
        cases h
        exact ⟨[], rfl, by simp, .nil, by simp [Follows], by simp [Stops]⟩
    | cons t ts =>
        cases hread : read? taken.head? t ts with
        | none =>
            rw [collectCompound_none hread] at h
            cases h
            refine ⟨[], rfl, by simp, .nil, by simp [Follows], ?_⟩
            intro u hu
            obtain rfl : t = u := Option.some.inj hu
            exact read?_eq_none_iff.mp hread
        | some r =>
            cases r with
            | error e =>
                rw [collectCompound_error hread] at h
                cases h
            | ok found =>
                rcases found with ⟨s, after⟩
                have hlt := read?_length hread
                rw [collectCompound_some hread] at h
                rcases ih after.length (hn ▸ hlt) h rfl with
                  ⟨runs, hafter, rfl, hchain, hfollows, hstops⟩
                rcases read?_spells hread with ⟨run, hts, hspells, hguard, hbare⟩
                refine ⟨⟨run, s, hspells⟩ :: runs, ?_, ?_, ?_, ?_, hstops⟩
                · rw [hts, hafter]
                  simp
                · simp
                · apply hchain.cons
                  intro next hnext
                  constructor
                  · intro helement
                    rw [← allowsElement_some]
                    exact hfollows next hnext helement
                  · intro hbar
                    rw [← Bool.not_eq_true]
                    intro hname
                    rcases List.head?_eq_some_iff.mp hnext with ⟨more, rfl⟩
                    have hyes := next.spells.qualified_of_bar hbar (tokensOf more ++ rest)
                    rw [← List.append_assoc, ← tokensOf_cons, ← hafter, hbare hname] at hyes
                    cases hyes
                · rintro first ⟨⟩
                  exact hguard

theorem collectCompound_of_runs {taken : Compound} {runs : List Run}
    (hchain : runs.IsChain Run.Fits) (hfollows : Follows taken runs) (hstops : Stops rest) :
    collectCompound taken (tokensOf runs ++ rest) =
      .ok (taken.reverse ++ simplesOf runs, rest) := by
  induction runs generalizing taken with
  | nil =>
      cases rest with
      | nil => rw [collectCompound.eq_def]; simp
      | cons t rest =>
          have hnone : read? taken.head? t rest = none := read?_eq_none_iff.mpr (hstops t rfl)
          have hread := collectCompound_none hnone
          simpa using hread
  | cons run runs ih =>
      rw [List.isChain_cons] at hchain
      have hbehind : isBare run.tokens = true ->
          qualified isElement (tokensOf runs ++ rest) = false := by
        intro hbare
        cases runs with
        | nil => exact not_qualified_of_stops hstops
        | cons next more =>
            rw [← Bool.not_eq_true]
            intro hqualified
            have hno : isBare run.tokens = false := by
              apply (hchain.1 next rfl).bar
              rcases next.spells.front with ⟨t, tail, hnext, _⟩
              rw [tokensOf_cons, hnext, List.append_assoc, List.cons_append, qualified,
                Bool.and_eq_true] at hqualified
              rw [hnext]
              exact hqualified.1
            rw [hbare] at hno
            cases hno
      rcases read?_of_spells run.spells (hfollows run rfl) hbehind with ⟨t, more, hrun, hread⟩
      have hsome := collectCompound_some hread
      rw [show tokensOf (run :: runs) ++ rest = t :: (more ++ (tokensOf runs ++ rest)) by
        simp [hrun], hsome, ih hchain.2 ?_]
      · simp
      · intro next hnext helement
        rw [List.head?_cons, allowsElement_some]
        exact (hchain.1 next hnext).element helement

theorem Row.startsCompound {runs : List Run} (h : Row runs) :
    ∃ t more, tokensOf runs = t :: more ∧ startsCompound t = true := by
  cases runs with
  | nil => exact absurd rfl h.nonempty
  | cons run runs =>
      rcases run.spells.startsCompound with ⟨t, more, hrun, hstarts⟩
      exact ⟨t, more ++ tokensOf runs, by rw [tokensOf_cons, hrun]; rfl, hstarts⟩

theorem readCompound_runs {c : Compound} (h : readCompound ts = .ok (c, rest)) :
    ∃ runs, ts = tokensOf runs ++ rest ∧ c = simplesOf runs ∧ runs.IsChain Run.Fits ∧
      Stops rest := by
  rcases collectCompound_runs h with ⟨runs, hts, hc, hchain, _, hstops⟩
  exact ⟨runs, hts, hc, hchain, hstops⟩

theorem readCompound_of_row {runs : List Run} (h : Row runs) (hstops : Stops rest) :
    readCompound (tokensOf runs ++ rest) = .ok (simplesOf runs, rest) :=
  collectCompound_of_runs h.fits (fun _ _ _ => Or.inr rfl) hstops

/-!
## Complex selectors
-/

/-- What joins two compound selectors: a sign with white space around it, or white space alone. -/
inductive Joins : List Token -> Combinator -> Prop where
  | sign {gap gap' : List Token} {sign : Token} {c : Combinator} (hgap : IsGap gap)
      (hsign : combinatorOf? sign = some c) (hgap' : IsGap gap') :
      Joins (gap ++ sign :: gap') c
  | space {gap : List Token} (hne : gap ≠ []) (hgap : IsGap gap) : Joins gap .descendant

inductive SpellsParts : List Token -> Parts -> Prop where
  | nil : SpellsParts [] []
  | cons {join ts : List Token} {runs : List Run} {c : Combinator} {parts : Parts}
      (hjoin : Joins join c) (hrow : Row runs) (hmore : SpellsParts ts parts) :
      SpellsParts (join ++ (tokensOf runs ++ ts)) ((c, simplesOf runs) :: parts)

inductive SpellsComplex : List Token -> Complex -> Prop where
  | mk {runs : List Run} {ts : List Token} {parts : Parts} (hrow : Row runs)
      (hparts : SpellsParts ts parts) : SpellsComplex (tokensOf runs ++ ts) ⟨simplesOf runs, parts⟩

def Ends (rest : List Token) : Prop :=
  ∃ gap more, IsGap gap ∧ rest = gap ++ more ∧ ∀ t ∈ more.head?, t.kind = .comma

theorem combinatorOf?_kind {c : Combinator} (h : combinatorOf? t = some c) :
    t.kind = .delim ∧ startsCompound t = false := by
  have hsign : t.isDelim 0x3E = true ∨ t.isDelim 0x2B = true ∨ t.isDelim 0x7E = true := by
    unfold combinatorOf? at h
    split at h
    · exact Or.inl (by assumption)
    · split at h
      · exact Or.inr (Or.inl (by assumption))
      · split at h
        · exact Or.inr (Or.inr (by assumption))
        · cases h
  simp only [Token.isDelim, Bool.and_eq_true, beq_iff_eq] at hsign
  rcases hsign with ⟨hkind, hvalue⟩ | ⟨hkind, hvalue⟩ | ⟨hkind, hvalue⟩ <;>
    simp [startsCompound, Token.isDelim, hkind, hvalue]

theorem startsCompound_kind (h : startsCompound t = true) :
    t.kind ≠ .whitespace ∧ t.kind ≠ .comma ∧ combinatorOf? t = none := by
  refine ⟨?_, ?_, ?_⟩
  · intro hkind
    simp [startsCompound, Token.isDelim, hkind] at h
  · intro hkind
    simp [startsCompound, Token.isDelim, hkind] at h
  · rw [Option.eq_none_iff_forall_ne_some]
    intro c hc
    rw [(combinatorOf?_kind hc).2] at h
    cases h

theorem startsCompound_of_kind (h : t.kind = .whitespace ∨ t.kind = .comma) :
    startsCompound t = false ∧ combinatorOf? t = none := by
  rcases h with hkind | hkind <;>
    simp [startsCompound, combinatorOf?, Token.isDelim, hkind]

theorem readCombinator?_joins {c : Combinator} (h : readCombinator? ts = some (c, rest)) :
    ∃ join, ts = join ++ rest ∧ Joins join c := by
  unfold readCombinator? at h
  rcases skipSpace_spells ts with ⟨gap, us, hgap, rfl, hskip⟩
  rw [hskip] at h
  cases us with
  | nil => cases h
  | cons t us =>
      cases hsign : combinatorOf? t with
      | some c' =>
          simp only [hsign, Option.some.injEq, Prod.mk.injEq] at h
          rcases skipSpace_spells us with ⟨gap', vs, hgap', rfl, hskip'⟩
          rw [hskip'] at h
          rcases h with ⟨rfl, rfl⟩
          exact ⟨gap ++ t :: gap', by simp, .sign hgap hsign hgap'⟩
      | none =>
          simp only [hsign] at h
          split at h
          · rename_i hspace
            cases h
            rw [Bool.and_eq_true] at hspace
            refine ⟨gap, rfl, .space ?_ hgap⟩
            rintro rfl
            have hkind := (startsCompound_kind hspace.2).1
            simp [startsWithSpace, hkind] at hspace
          · cases h

theorem readCombinator?_of_joins {join : List Token} {c : Combinator} {runs : List Run}
    (h : Joins join c) (hrow : Row runs) (rest : List Token) :
    readCombinator? (join ++ (tokensOf runs ++ rest)) = some (c, tokensOf runs ++ rest) := by
  rcases hrow.startsCompound with ⟨t, more, htokens, hstarts⟩
  have hfront : skipSpace (tokensOf runs ++ rest) = tokensOf runs ++ rest := by
    rw [htokens]
    exact skipSpace_visible _ (startsCompound_kind hstarts).1
  unfold readCombinator?
  cases h with
  | sign hgap hsign hgap' =>
      rename_i gap gap' sign
      have hkind : sign.kind ≠ .whitespace := by simp [(combinatorOf?_kind hsign).1]
      rw [List.append_assoc, List.cons_append, skipSpace_front hgap hkind]
      simp only [hsign]
      rw [skipSpace_of_gap hgap', hfront]
  | space hne hgap =>
      rcases List.exists_cons_of_ne_nil hne with ⟨w, gap, rfl⟩
      have hspace : startsWithSpace (w :: gap ++ (tokensOf runs ++ rest)) = true := by
        simp [startsWithSpace, hgap w List.mem_cons_self]
      rw [skipSpace_of_gap hgap, hfront, hspace, htokens]
      simp [(startsCompound_kind hstarts).2.2, hstarts]

theorem Ends.stops (h : Ends rest) : Stops rest ∧ readCombinator? rest = none := by
  rcases h with ⟨gap, more, hgap, rfl, hcomma⟩
  constructor
  · intro t ht
    cases gap with
    | nil => exact (startsCompound_of_kind (Or.inr (hcomma t ht))).1
    | cons w gap =>
        obtain rfl : w = t := Option.some.inj ht
        exact (startsCompound_of_kind (Or.inl (hgap w List.mem_cons_self))).1
  · unfold readCombinator?
    cases more with
    | nil =>
        rw [skipSpace_of_gap hgap]
        rfl
    | cons t more =>
        have hkind := hcomma t rfl
        rcases startsCompound_of_kind (Or.inr hkind) with ⟨hstarts, hnone⟩
        rw [skipSpace_front hgap (by simp [hkind])]
        simp [hstarts, hnone]

theorem Joins.stops {join : List Token} {c : Combinator} (h : Joins join c) (rest : List Token) :
    Stops (join ++ rest) := by
  have hgap : ∀ {w : Token} {gap more : List Token}, IsGap (w :: gap) ->
      ∀ t ∈ (w :: gap ++ more).head?, startsCompound t = false := by
    intro w gap more hgap t ht
    obtain rfl : w = t := Option.some.inj ht
    exact (startsCompound_of_kind (Or.inl (hgap w List.mem_cons_self))).1
  cases h with
  | sign hspace hsign _ =>
      rename_i gap gap' sign _
      cases gap with
      | nil =>
          intro t ht
          obtain rfl : sign = t := Option.some.inj ht
          exact (combinatorOf?_kind hsign).2
      | cons w gap =>
          rw [List.append_assoc]
          exact hgap hspace
  | space hne hspace =>
      rcases List.exists_cons_of_ne_nil hne with ⟨w, gap, rfl⟩
      exact hgap hspace

theorem SpellsParts.stops {parts : Parts} (h : SpellsParts ts parts) (hends : Ends rest) :
    Stops (ts ++ rest) := by
  cases h with
  | nil => exact hends.stops.1
  | cons hjoin hrow hmore =>
      rw [List.append_assoc]
      exact hjoin.stops _

theorem row_of_runs {runs : List Run} {c : Compound} {s : Simple} (hc : s :: c = simplesOf runs)
    (hchain : runs.IsChain Run.Fits) : Row runs := by
  refine ⟨?_, hchain⟩
  rintro rfl
  cases hc

theorem collectParts_spells {taken parts : Parts}
    (h : collectParts taken ts = .ok (parts, rest)) :
    ∃ us found, ts = us ++ rest ∧ parts = taken.reverse ++ found ∧ SpellsParts us found := by
  induction hn : ts.length using Nat.strongRecOn generalizing taken ts with
  | ind n ih =>
    cases hread : readCombinator? ts with
    | none =>
        rw [collectParts_none hread] at h
        cases h
        exact ⟨[], [], rfl, by simp, .nil⟩
    | some found =>
        rcases found with ⟨c, after⟩
        have hle := readCombinator?_length hread
        rcases readCombinator?_joins hread with ⟨join, rfl, hjoin⟩
        rw [collectParts_some hread] at h
        split at h
        · cases h
        · cases h
        · rename_i s compound rest' hcompound
          have hlt := readCompound_length hcompound
          simp only [List.length_cons] at hlt
          rcases ih rest'.length (by omega) h rfl with ⟨us, more, rfl, rfl, hmore⟩
          rcases readCompound_runs hcompound with ⟨runs, rfl, hc, hchain, _⟩
          have hrow := row_of_runs hc hchain
          refine ⟨_, _, ?_, ?_, .cons hjoin hrow hmore⟩
          · simp
          · simp [hc]

theorem collectParts_of_spells {taken found : Parts} (h : SpellsParts ts found)
    (hends : Ends rest) : collectParts taken (ts ++ rest) = .ok (taken.reverse ++ found, rest) := by
  induction h generalizing taken with
  | nil =>
      rw [List.nil_append, collectParts_none hends.stops.2, List.append_nil]
  | cons hjoin hrow hmore ih =>
      rename_i join us runs c parts
      have hread := readCombinator?_of_joins hjoin hrow (us ++ rest)
      have hcompound := readCompound_of_row hrow (hmore.stops hends)
      rw [List.append_assoc, List.append_assoc, collectParts_some hread, hcompound]
      cases runs with
      | nil => exact absurd rfl hrow.nonempty
      | cons run runs =>
          rw [simplesOf_cons]
          dsimp only
          rw [ih]
          simp

theorem readComplex_spells {c : Complex} (h : readComplex ts = .ok (c, rest)) :
    ∃ us, ts = us ++ rest ∧ SpellsComplex us c := by
  rcases readComplex_ok h with ⟨s, compound, after, parts, hcompound, hparts, rfl⟩
  rcases readCompound_runs hcompound with ⟨runs, rfl, hc, hchain, _⟩
  rcases collectParts_spells hparts with ⟨us, found, rfl, hfound, hspells⟩
  obtain rfl : parts = found := hfound
  refine ⟨tokensOf runs ++ us, by simp, ?_⟩
  rw [hc]
  exact .mk (row_of_runs hc hchain) hspells

theorem readComplex_of_spells {c : Complex} (h : SpellsComplex ts c) (hends : Ends rest) :
    readComplex (ts ++ rest) = .ok (c, rest) := by
  cases h with
  | mk hrow hparts =>
      rename_i runs us parts
      have hcompound := readCompound_of_row hrow (hparts.stops hends)
      have hread : collectParts [] (us ++ rest) = .ok (parts, rest) :=
        collectParts_of_spells hparts hends
      rw [List.append_assoc, readComplex, hcompound]
      cases runs with
      | nil => exact absurd rfl hrow.nonempty
      | cons run runs =>
          rw [simplesOf_cons]
          dsimp only
          rw [hread]

/-!
## Lists
-/

/-- Complex selectors with commas between them, and white space around the commas. -/
inductive SpellsList : List Token -> SelectorList -> Prop where
  | last {ts gap : List Token} {c : Complex} (hc : SpellsComplex ts c) (hgap : IsGap gap) :
      SpellsList (ts ++ gap) [c]
  | cons {ts gap gap' us : List Token} {comma : Token} {c : Complex} {list : SelectorList}
      (hc : SpellsComplex ts c) (hgap : IsGap gap) (hcomma : comma.kind = .comma)
      (hgap' : IsGap gap') (hmore : SpellsList us list) :
      SpellsList (ts ++ (gap ++ comma :: (gap' ++ us))) (c :: list)

def Spelled (ts : List Token) (list : SelectorList) : Prop :=
  ∃ gap us, IsGap gap ∧ ts = gap ++ us ∧ SpellsList us list

theorem SpellsComplex.visible {c : Complex} (h : SpellsComplex ts c) :
    ∃ t more, ts = t :: more ∧ t.kind ≠ .whitespace := by
  cases h with
  | mk hrow hparts =>
      rcases hrow.startsCompound with ⟨t, more, htokens, hstarts⟩
      exact ⟨t, _, by rw [htokens]; rfl, (startsCompound_kind hstarts).1⟩

theorem SpellsList.visible {list : SelectorList} (h : SpellsList ts list) :
    ∃ t more, ts = t :: more ∧ t.kind ≠ .whitespace := by
  cases h with
  | last hc _ =>
      rcases hc.visible with ⟨t, more, rfl, hkind⟩
      exact ⟨t, _, rfl, hkind⟩
  | cons hc _ _ _ _ =>
      rcases hc.visible with ⟨t, more, rfl, hkind⟩
      exact ⟨t, _, rfl, hkind⟩

theorem collectList_spells {taken list : SelectorList} (h : collectList taken ts = .ok list) :
    ∃ found, list = taken.reverse ++ found ∧ SpellsList ts found := by
  induction hn : ts.length using Nat.strongRecOn generalizing taken ts with
  | ind n ih =>
    rw [collectList_eq] at h
    split at h
    · cases h
    · rename_i c rest hread
      have hlt := readComplex_length hread
      rcases readComplex_spells hread with ⟨us, rfl, hc⟩
      rcases skipSpace_spells rest with ⟨gap, vs, hgap, rfl, hskip⟩
      rw [hskip] at h
      cases vs with
      | nil =>
          cases h
          exact ⟨[c], by simp, by simpa using SpellsList.last hc hgap⟩
      | cons comma vs =>
          dsimp only at h
          split at h
          · rename_i hcomma
            rcases skipSpace_spells vs with ⟨gap', ws, hgap', rfl, hskip'⟩
            rw [hskip'] at h
            cases ws with
            | nil => cases h
            | cons next ws =>
                have hless : (next :: ws).length < n := by
                  rw [← hn]
                  simp only [List.length_append, List.length_cons] at hlt ⊢
                  omega
                rcases ih (next :: ws).length hless h rfl with ⟨found, hlist, hmore⟩
                refine ⟨c :: found, ?_, .cons hc hgap hcomma hgap' hmore⟩
                rw [hlist]
                simp
          · cases h

theorem ends_of_gap {more : List Token} (hgap : IsGap gap)
    (hmore : ∀ t ∈ more.head?, t.kind = .comma) : Ends (gap ++ more) :=
  ⟨gap, more, hgap, rfl, hmore⟩

theorem collectList_of_spells {taken found : SelectorList} (h : SpellsList ts found) :
    collectList taken ts = .ok (taken.reverse ++ found) := by
  induction h generalizing taken with
  | last hc hgap =>
      rename_i us gap c
      have hends : Ends gap := ⟨gap, [], hgap, (List.append_nil gap).symm, nofun⟩
      have hskip : skipSpace gap = [] := by
        have hnil := skipSpace_of_gap hgap []
        rwa [List.append_nil] at hnil
      rw [collectList_eq, readComplex_of_spells hc hends]
      dsimp only
      rw [hskip]
      simp
  | cons hc hgap hcomma hgap' hmore ih =>
      rename_i us gap gap' vs comma c list
      have hends : Ends (gap ++ comma :: (gap' ++ vs)) := by
        apply ends_of_gap hgap
        rintro t ⟨⟩
        exact hcomma
      rcases hmore.visible with ⟨t, more, rfl, hkind⟩
      rw [collectList_eq, readComplex_of_spells hc hends]
      dsimp only
      rw [skipSpace_front hgap (by simp [hcomma])]
      dsimp only
      rw [if_pos hcomma, skipSpace_front hgap' hkind]
      dsimp only
      rw [ih]
      simp

theorem ofTokens_iff {list : SelectorList} :
    SelectorList.ofTokens ts = .ok list ↔ Spelled (body ts) list := by
  rw [SelectorList.ofTokens]
  rcases skipSpace_spells (body ts) with ⟨gap, us, hgap, hbody, hskip⟩
  rw [hskip]
  constructor
  · intro h
    cases us with
    | nil => cases h
    | cons t us =>
        rcases collectList_spells h with ⟨found, rfl, hspells⟩
        exact ⟨gap, t :: us, hgap, hbody, hspells⟩
  · rintro ⟨gap', vs, hgap', hbody', hspells⟩
    rcases hspells.visible with ⟨t, more, rfl, hkind⟩
    have hvs : us = t :: more := by
      rw [← hskip, hbody', skipSpace_front hgap' hkind]
    rw [hvs]
    exact collectList_of_spells hspells

end Grammar
end StyleTrim
