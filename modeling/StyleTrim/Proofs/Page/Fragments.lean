import Mathlib.Data.List.TakeWhile
import StyleTrim.Page.Scan
import StyleTrim.Proofs.Sanitize.Matching

/-!
# Fragments of a page

A fragment begins with `<` and ends with `>`. No name, no blank and no bare value goes beyond a
closing bracket, and a quoted value needs its closing quote, so what is read at a place within the
fragment does not depend on the text behind it. Only at its first place does the text before it
count, and there nothing but a tag can be read. So a page has all the facts of its fragments.
-/

namespace StyleTrim

/-- Every name among the first facts is among the second. -/
structure Facts.Within (facts wider : Facts) : Prop where
  tags : facts.tags ⊆ wider.tags
  ids : facts.ids ⊆ wider.ids
  classes : facts.classes ⊆ wider.classes
  attributes : facts.attributes ⊆ wider.attributes

/-!
## Text behind a stop
-/

section

variable {s rest : Bytes} {p : UInt8 -> Bool} {stop : UInt8}

theorem takeWhile_append_of_mem (hmem : stop ∈ s) (hstop : p stop = false) (more : Bytes) :
    (s ++ more).takeWhile p = s.takeWhile p := by
  induction s with
  | nil => cases hmem
  | cons b s ih =>
      rw [List.cons_append, List.takeWhile_cons, List.takeWhile_cons]
      rcases List.mem_cons.mp hmem with rfl | hmem
      · rw [hstop]
        rfl
      · rw [ih hmem]

theorem mem_dropWhile_of_mem (hmem : stop ∈ s) (hstop : p stop = false) :
    stop ∈ s.dropWhile p := by
  rw [← List.takeWhile_append_dropWhile (p := p) (l := s), List.mem_append] at hmem
  rcases hmem with htaken | hdropped
  · rw [List.mem_takeWhile_imp htaken] at hstop
    cases hstop
  · exact hdropped

theorem dropWhile_append_of_mem (hmem : stop ∈ s) (hstop : p stop = false) (more : Bytes) :
    (s ++ more).dropWhile p = s.dropWhile p ++ more := by
  have hne := List.ne_nil_of_mem (mem_dropWhile_of_mem hmem hstop)
  rw [List.dropWhile_append, if_neg (by simpa using hne)]

theorem dropWord?_splits {word : Bytes} (h : dropWord? word s = some rest) :
    ∃ front, s = front ++ rest ∧ lower front = word := by
  induction word generalizing s with
  | nil =>
      cases s <;> cases h <;> exact ⟨[], rfl, rfl⟩
  | cons w word ih =>
      cases s with
      | nil => cases h
      | cons b s =>
          rw [dropWord?] at h
          split at h
          · rename_i hb
            rcases ih h with ⟨front, rfl, rfl⟩
            exact ⟨b :: front, rfl, congrArg (· :: lower front) hb⟩
          · cases h

theorem dropWord?_more {word : Bytes} (h : dropWord? word s = some rest) (more : Bytes) :
    dropWord? word (s ++ more) = some (rest ++ more) := by
  rcases dropWord?_splits h with ⟨front, rfl, hfront⟩
  rw [List.append_assoc, dropWord?_append hfront]

theorem mem_of_dropWord? {word : Bytes} (h : dropWord? word s = some rest) (hmem : 0x3E ∈ s)
    (hword : 0x3E ∉ word) : 0x3E ∈ rest := by
  rcases dropWord?_splits h with ⟨front, rfl, rfl⟩
  rcases List.mem_append.mp hmem with hfront | hrest
  · exact absurd (List.mem_map_of_mem hfront) hword
  · exact hrest

end

namespace Page

/-!
## Places
-/

theorem collectSpots_eq (before : Option UInt8) (s : Bytes) (taken : List Spot) :
    collectSpots before s taken = taken.reverse ++ spotsFrom before s := by
  induction s generalizing before taken with
  | nil => rw [spotsFrom, collectSpots, collectSpots, List.reverse_nil, List.append_nil]
  | cons b s ih =>
      rw [spotsFrom, collectSpots, collectSpots, ih, ih (some b) [_], List.reverse_cons,
        List.append_assoc]
      rfl

theorem spotsFrom_cons (before : Option UInt8) (b : UInt8) (s : Bytes) :
    spotsFrom before (b :: s) = ⟨before, b :: s⟩ :: spotsFrom (some b) s := by
  rw [spotsFrom, collectSpots, collectSpots_eq]
  rfl

variable {spot wide : Spot} {s : Bytes}

theorem mem_spotsFrom {before : Option UInt8} :
    spot ∈ spotsFrom before s ↔
      ∃ front, s = front ++ spot.rest ∧ spot.rest ≠ [] ∧
        spot.before = front.getLast?.or before := by
  induction s generalizing before with
  | nil =>
      constructor
      · intro h
        cases h
      · rintro ⟨front, hs, hne, -⟩
        exact absurd (List.append_eq_nil_iff.mp hs.symm).2 hne
  | cons b s ih =>
      rw [spotsFrom_cons, List.mem_cons, ih]
      constructor
      · rintro (rfl | ⟨front, rfl, hne, hbefore⟩)
        · exact ⟨[], rfl, List.cons_ne_nil b s, rfl⟩
        · refine ⟨b :: front, rfl, hne, ?_⟩
          rw [hbefore, List.getLast?_cons]
          cases front.getLast? <;> rfl
      · rintro ⟨front, hs, hne, hbefore⟩
        cases front with
        | nil =>
            rcases spot with ⟨before', rest⟩
            cases hs
            exact Or.inl (congrArg (Spot.mk · (b :: s)) hbefore)
        | cons c front =>
            cases hs
            refine Or.inr ⟨front, rfl, hne, ?_⟩
            rw [hbefore, List.getLast?_cons]
            cases front.getLast? <;> rfl

structure Spot.Within (spot wide : Spot) : Prop where
  rest : ∃ more, wide.rest = spot.rest ++ more
  before : spot.before = wide.before ∨ spot.before = none ∧ spot.rest.head? = some 0x3C
  bracket : 0x3E ∈ spot.rest

theorem spots_within (hfirst : s.head? = some 0x3C) (hlast : s.getLast? = some 0x3E)
    (front back : Bytes) (h : spot ∈ spots s) :
    ∃ wide ∈ spots (front ++ s ++ back), spot.Within wide := by
  rcases mem_spotsFrom.mp h with ⟨inner, hs, hne, hbefore⟩
  rw [Option.or_none] at hbefore
  refine ⟨⟨(front ++ inner).getLast?, spot.rest ++ back⟩, ?_, ⟨back, rfl⟩, ?_, ?_⟩
  · refine mem_spotsFrom.mpr ⟨front ++ inner, ?_, ?_, (Option.or_none).symm⟩
    · rw [hs]
      simp only [List.append_assoc]
    · exact List.append_ne_nil_of_left_ne_nil hne back
  · rw [hbefore]
    cases inner with
    | nil =>
        rw [hs, List.nil_append] at hfirst
        exact Or.inr ⟨rfl, hfirst⟩
    | cons b inner =>
        rw [List.getLast?_append, List.getLast?_cons]
        exact Or.inl rfl
  · rw [hs, List.getLast?_append] at hlast
    cases hrest : spot.rest.getLast? with
    | none => exact absurd (List.getLast?_eq_none_iff.mp hrest) hne
    | some b =>
        rw [hrest] at hlast
        cases hlast
        exact List.mem_of_getLast? hrest

/-!
## What is read at a place
-/

theorem tagAt?_within (h : spot.Within wide) {name : Bytes} (htag : tagAt? spot = some name) :
    tagAt? wide = some name := by
  rcases h.rest with ⟨more, hrest⟩
  have hbracket := h.bracket
  unfold tagAt? at htag ⊢
  split at htag
  · rename_i b s hspot
    rw [hspot] at hrest hbracket
    have hmem : 0x3E ∈ b :: s := by simpa using hbracket
    have hname : (b :: (s ++ more)).takeWhile isMarkupName = (b :: s).takeWhile isMarkupName :=
      takeWhile_append_of_mem hmem rfl more
    rw [hrest]
    change (if Byte.isAlpha b then some (lower ((b :: (s ++ more)).takeWhile isMarkupName))
      else none) = some name
    rw [hname, htag]
  · cases htag

theorem readValue?_more {value : Bytes} (hmem : 0x3E ∈ s) (h : readValue? s = some value)
    (more : Bytes) : readValue? (s ++ more) = some value := by
  have hmem' := mem_dropWhile_of_mem hmem (rfl : Byte.isBlank 0x3E = false)
  unfold readValue? at h ⊢
  rw [dropWhile_append_of_mem hmem (rfl : Byte.isBlank 0x3E = false)]
  cases hrest : s.dropWhile Byte.isBlank with
  | nil =>
      rw [hrest] at hmem'
      cases hmem'
  | cons b rest =>
      rw [hrest] at h hmem'
      dsimp only [List.cons_append] at h ⊢
      split
      · rename_i hquote
        rw [if_pos hquote] at h
        split at h
        · rename_i hclosed
          have hb : b ∈ rest := List.contains_iff_mem.mp hclosed
          rw [if_pos (List.contains_iff_mem.mpr (List.mem_append_left more hb)),
            takeWhile_append_of_mem hb (by simp), h]
        · cases h
      · rename_i hquote
        rw [if_neg hquote] at h
        have hbare : (b :: (rest ++ more)).takeWhile isBareValue =
            (b :: rest).takeWhile isBareValue :=
          takeWhile_append_of_mem hmem' rfl more
        rw [hbare, h]

theorem valueAfterName?_more {value : Bytes} (hmem : 0x3E ∈ s)
    (h : valueAfterName? s = some value) (more : Bytes) :
    valueAfterName? (s ++ more) = some value := by
  have hmem' := mem_dropWhile_of_mem hmem (rfl : Byte.isBlank 0x3E = false)
  unfold valueAfterName? at h ⊢
  rw [dropWhile_append_of_mem hmem (rfl : Byte.isBlank 0x3E = false)]
  split at h
  · rename_i rest hrest
    rw [hrest] at hmem' ⊢
    exact readValue?_more (by simpa using hmem') h more
  · cases h

theorem valueAt?_within (h : spot.Within wide) {name value : Bytes} (hname : 0x3E ∉ name)
    (hstart : ∀ s, dropWord? name (0x3C :: s) = none) (hvalue : valueAt? name spot = some value) :
    valueAt? name wide = some value := by
  rcases h.rest with ⟨more, hrest⟩
  unfold valueAt? at hvalue ⊢
  split at hvalue
  · cases hvalue
  · rename_i hword
    split at hvalue
    · rename_i rest hdrop
      have hsame : spot.before = wide.before := by
        rcases h.before with hsame | ⟨-, hopens⟩
        · exact hsame
        · rcases List.head?_eq_some_iff.mp hopens with ⟨s, hspot⟩
          rw [hspot, hstart] at hdrop
          cases hdrop
      rw [← hsame, if_neg hword, hrest, dropWord?_more hdrop]
      exact valueAfterName?_more (mem_of_dropWord? hdrop h.bracket hname) hvalue more
    · cases hvalue

theorem idAt?_within (h : spot.Within wide) {id : Bytes} (hid : idAt? spot = some id) :
    idAt? wide = some id := by
  rcases Option.filter_eq_some_iff.mp hid with ⟨hvalue, hne⟩
  have hwide := valueAt?_within h (by decide) (fun _ => rfl) hvalue
  exact Option.filter_eq_some_iff.mpr ⟨hwide, hne⟩

theorem classesAt_within (h : spot.Within wide) : classesAt spot ⊆ classesAt wide := by
  intro name hname
  unfold classesAt at hname ⊢
  split at hname
  · rename_i value hvalue
    rw [valueAt?_within h (by decide) (fun _ => rfl) hvalue]
    exact hname
  · cases hname

theorem dataAttributeAt?_within (h : spot.Within wide) {name : Bytes}
    (hdata : dataAttributeAt? spot = some name) : dataAttributeAt? wide = some name := by
  rcases h.rest with ⟨more, hrest⟩
  unfold dataAttributeAt? at hdata ⊢
  rcases h.before with hbefore | ⟨hnone, -⟩
  · rw [← hbefore]
    split at hdata
    · rename_i hblank
      rw [if_pos hblank]
      split at hdata
      · rename_i rest hword
        have hmem := mem_of_dropWord? hword h.bracket (by decide)
        rw [hrest, dropWord?_more hword]
        dsimp only at hdata ⊢
        rw [takeWhile_append_of_mem hmem rfl, hdata]
      · cases hdata
    · cases hdata
  · rw [hnone] at hdata
    cases hdata

theorem hasAttributeAt_within (h : spot.Within wide) {name : Bytes}
    (hhas : hasAttributeAt name spot = true) : hasAttributeAt name wide = true := by
  rcases h.rest with ⟨more, hrest⟩
  unfold hasAttributeAt at hhas ⊢
  cases hdrop : dropWord? name spot.rest with
  | none =>
      rw [hdrop] at hhas
      cases hhas
  | some rest =>
      rw [hdrop] at hhas
      rw [hrest, dropWord?_more hdrop]
      cases rest with
      | nil => cases hhas
      | cons b rest => exact hhas

/-!
## All places
-/

section

variable {fragment front back : Bytes}

theorem filterMap_spots_subset (hfirst : fragment.head? = some 0x3C)
    (hlast : fragment.getLast? = some 0x3E) {found : Spot -> Option Bytes}
    (hfound : ∀ {spot wide : Spot}, spot.Within wide ->
      ∀ {name : Bytes}, found spot = some name -> found wide = some name) :
    (spots fragment).filterMap found ⊆ (spots (front ++ fragment ++ back)).filterMap found := by
  intro name hname
  rcases List.mem_filterMap.mp hname with ⟨spot, hspot, hread⟩
  rcases spots_within hfirst hlast front back hspot with ⟨wide, hwide, hwithin⟩
  exact List.mem_filterMap.mpr ⟨wide, hwide, hfound hwithin hread⟩

theorem classes_spots_subset (hfirst : fragment.head? = some 0x3C)
    (hlast : fragment.getLast? = some 0x3E) :
    (spots fragment).flatMap classesAt ⊆ (spots (front ++ fragment ++ back)).flatMap classesAt := by
  intro name hname
  rcases List.mem_flatMap.mp hname with ⟨spot, hspot, hread⟩
  rcases spots_within hfirst hlast front back hspot with ⟨wide, hwide, hwithin⟩
  exact List.mem_flatMap.mpr ⟨wide, hwide, classesAt_within hwithin hread⟩

theorem commonAttributesIn_subset (hfirst : fragment.head? = some 0x3C)
    (hlast : fragment.getLast? = some 0x3E) :
    commonAttributesIn (spots fragment) ⊆
      commonAttributesIn (spots (front ++ fragment ++ back)) := by
  intro name hname
  rcases List.mem_filter.mp hname with ⟨hcommon, hany⟩
  rcases List.any_eq_true.mp hany with ⟨spot, hspot, hhas⟩
  rcases spots_within hfirst hlast front back hspot with ⟨wide, hwide, hwithin⟩
  exact List.mem_filter.mpr
    ⟨hcommon, List.any_eq_true.mpr ⟨wide, hwide, hasAttributeAt_within hwithin hhas⟩⟩

end

end Page

theorem NameSet.ofList_subset {names more : List Bytes} (h : names ⊆ more) :
    NameSet.ofList names ⊆ NameSet.ofList more := by
  intro name hname
  exact mem_ofList.mpr (h (mem_ofList.mp hname))

theorem Facts.ofMarkup_within {fragment : Bytes} (hfirst : fragment.head? = some 0x3C)
    (hlast : fragment.getLast? = some 0x3E) (front back : Bytes) :
    (Facts.ofMarkup fragment).Within (Facts.ofMarkup (front ++ fragment ++ back)) where
  tags := NameSet.ofList_subset (Page.filterMap_spots_subset hfirst hlast Page.tagAt?_within)
  ids := NameSet.ofList_subset (Page.filterMap_spots_subset hfirst hlast Page.idAt?_within)
  classes := NameSet.ofList_subset (Page.classes_spots_subset hfirst hlast)
  attributes := by
    refine NameSet.ofList_subset (List.append_subset.mpr ⟨?_, ?_⟩)
    · exact List.subset_append_of_subset_left _
        (Page.filterMap_spots_subset hfirst hlast Page.dataAttributeAt?_within)
    · exact List.subset_append_of_subset_right _ (Page.commonAttributesIn_subset hfirst hlast)

end StyleTrim
