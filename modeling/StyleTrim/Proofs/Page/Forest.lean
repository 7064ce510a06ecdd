import StyleTrim.Selector.Matching

/-!
# What a selector means

The facts about a page are names without places. Here a page is a forest of elements, and a
selector is read as it is meant: every simple selector of a compound one holds of an element, and
combinators say how two elements lie to each other. What the facts cannot tell (attributes,
pseudo-classes, pseudo-elements, the universal and the nesting selector) is left to a predicate on
elements that may be anything. The last section proves that the facts never deny a match.
-/

namespace StyleTrim

structure Element where
  tag : Bytes
  id : Option Bytes
  classes : List Bytes

inductive Tree where
  | node (element : Element) (children : List Tree)

namespace Tree

def element : Tree -> Element
  | node element _ => element

def children : Tree -> List Tree
  | node _ children => children

end Tree

abbrev Forest := List Tree

mutual

def Tree.elements : Tree -> List Element
  | .node element children => element :: Forest.elements children

def Forest.elements : Forest -> List Element
  | [] => []
  | tree :: trees => tree.elements ++ Forest.elements trees

end

/-- The way to an element: its number among the roots, then its number among the children, and
so on. -/
abbrev ElementPath := List Nat

namespace Forest

def treeAt? (forest : Forest) : ElementPath -> Option Tree
  | [] => none
  | [i] => forest[i]?
  | i :: j :: path =>
      match forest[i]? with
      | none => none
      | some tree => treeAt? tree.children (j :: path)

def elementAt? (forest : Forest) (path : ElementPath) : Option Element :=
  (forest.treeAt? path).map Tree.element

theorem elements_subset_of_getElem? {forest : Forest} {i : Nat} {tree : Tree}
    (h : forest[i]? = some tree) : tree.elements ⊆ forest.elements := by
  induction forest generalizing i with
  | nil => simp at h
  | cons first forest ih =>
      intro element helement
      unfold Forest.elements
      cases i with
      | zero =>
          obtain rfl : first = tree := by simpa using h
          exact List.mem_append_left _ helement
      | succ i => exact List.mem_append_right _ (ih (by simpa using h) helement)

theorem elements_subset_of_treeAt? {forest : Forest} {path : ElementPath} {tree : Tree}
    (h : forest.treeAt? path = some tree) : tree.elements ⊆ forest.elements := by
  induction path generalizing forest with
  | nil => cases h
  | cons i path ih =>
      cases path with
      | nil => exact elements_subset_of_getElem? h
      | cons j path =>
          unfold treeAt? at h
          split at h
          · cases h
          · rename_i parent hparent
            intro element helement
            apply elements_subset_of_getElem? hparent
            cases parent with
            | node first children => exact List.mem_cons_of_mem _ (ih h helement)

theorem mem_elements_of_elementAt? {forest : Forest} {path : ElementPath} {element : Element}
    (h : forest.elementAt? path = some element) : element ∈ forest.elements := by
  obtain ⟨tree, htree, rfl⟩ := Option.map_eq_some_iff.mp h
  apply elements_subset_of_treeAt? htree
  cases tree with
  | node first children => exact List.mem_cons_self

end Forest

/-!
## Simple and compound selectors

Element names are compared without regard to case, ids and classes exactly.
-/

/-- The simple selector holds of the element at the end of the path; `holds` speaks for those that
the facts cannot tell. -/
def Simple.HoldsAt (holds : Simple -> ElementPath -> Prop) (path : ElementPath)
    (element : Element) :
    Simple -> Prop
  | .element name => lower name = lower element.tag
  | .id name => element.id = some name
  | .className name => name ∈ element.classes
  | other => holds other path

def Compound.HoldsAt (forest : Forest) (holds : Simple -> ElementPath -> Prop) (path : ElementPath)
    (compound : Compound) : Prop :=
  ∃ element, forest.elementAt? path = some element ∧
    ∀ s ∈ compound, s.HoldsAt holds path element

/-!
## Combinators
-/

/-- The second path lies to the first one as the combinator says. -/
def Combinator.Joins : Combinator -> ElementPath -> ElementPath -> Prop
  | .descendant, p, q => ∃ below, below ≠ [] ∧ q = p ++ below
  | .child, p, q => ∃ i, q = p ++ [i]
  | .nextSibling, p, q => ∃ parent i, p = parent ++ [i] ∧ q = parent ++ [i + 1]
  | .subsequentSibling, p, q => ∃ parent i j, i < j ∧ p = parent ++ [i] ∧ q = parent ++ [j]

/-- From an element one comes to another by way of the further compound selectors of a complex
one. -/
inductive Complex.Leads (forest : Forest) (holds : Simple -> ElementPath -> Prop) :
    ElementPath -> List (Combinator × Compound) -> ElementPath -> Prop where
  | here (p : ElementPath) : Leads forest holds p [] p
  | onward {p q r : ElementPath} {combinator : Combinator} {compound : Compound}
      {more : List (Combinator × Compound)} (hjoin : combinator.Joins p q)
      (hholds : compound.HoldsAt forest holds q) (hmore : Leads forest holds q more r) :
      Leads forest holds p ((combinator, compound) :: more) r

/-- The complex selector matches the element at the end of the path. -/
def Complex.Matches (forest : Forest) (holds : Simple -> ElementPath -> Prop) (c : Complex)
    (path : ElementPath) : Prop :=
  ∃ start, c.first.HoldsAt forest holds start ∧ Complex.Leads forest holds start c.more path

/-!
## The facts never deny a match
-/

/-- Every name in the forest is among the facts. -/
def Facts.Cover (facts : Facts) (forest : Forest) : Prop :=
  ∀ element ∈ forest.elements,
    lower element.tag ∈ facts.tags ∧ (∀ id ∈ element.id, id ∈ facts.ids) ∧
      ∀ name ∈ element.classes, name ∈ facts.classes

variable {facts : Facts} {forest : Forest} {holds : Simple -> ElementPath -> Prop}

theorem Simple.mayMatch_of_holdsAt (hcover : facts.Cover forest) {path : ElementPath}
    {element : Element} (helement : forest.elementAt? path = some element) {s : Simple}
    (h : s.HoldsAt holds path element) : s.mayMatch facts = true := by
  obtain ⟨htag, hid, hclasses⟩ := hcover element (Forest.mem_elements_of_elementAt? helement)
  cases s with
  | element name =>
      have hname : lower name = lower element.tag := h
      simpa [Simple.mayMatch, hname] using htag
  | id name =>
      simpa [Simple.mayMatch] using hid name h
  | className name =>
      simpa [Simple.mayMatch] using hclasses name h
  | _ => rfl

theorem Compound.mayMatch_of_holdsAt (hcover : facts.Cover forest) {path : ElementPath}
    {compound : Compound} (h : compound.HoldsAt forest holds path) :
    compound.all (Simple.mayMatch facts) = true := by
  obtain ⟨element, helement, hall⟩ := h
  rw [List.all_eq_true]
  intro s hs
  exact Simple.mayMatch_of_holdsAt hcover helement (hall s hs)

theorem Complex.mayMatch_of_leads (hcover : facts.Cover forest) {p q : ElementPath}
    {more : List (Combinator × Compound)} (h : Complex.Leads forest holds p more q) :
    ∀ part ∈ more, part.2.all (Simple.mayMatch facts) = true := by
  induction h with
  | here p =>
      intro part hpart
      cases hpart
  | onward _ hholds _ ih =>
      intro part hpart
      rcases List.mem_cons.mp hpart with rfl | hrest
      · exact Compound.mayMatch_of_holdsAt hcover hholds
      · exact ih part hrest

theorem Complex.mayMatch_of_matches (hcover : facts.Cover forest) {c : Complex} {path : ElementPath}
    (h : c.Matches forest holds path) : c.mayMatch facts = true := by
  obtain ⟨start, hfirst, hleads⟩ := h
  unfold Complex.mayMatch Complex.compounds
  rw [List.all_cons, Bool.and_eq_true, List.all_map]
  constructor
  · exact Compound.mayMatch_of_holdsAt hcover hfirst
  · exact List.all_eq_true.mpr (Complex.mayMatch_of_leads hcover hleads)

theorem SelectorList.mayMatchAny_of_matches (hcover : facts.Cover forest) {list : SelectorList}
    {c : Complex} (hmem : c ∈ list) {path : ElementPath} (h : c.Matches forest holds path) :
    list.mayMatchAny facts = true := by
  unfold SelectorList.mayMatchAny
  rw [Bool.or_eq_true, List.any_eq_true]
  exact Or.inr ⟨c, hmem, Complex.mayMatch_of_matches hcover h⟩

end StyleTrim
