import StyleTrim.Page.Facts
import StyleTrim.Selector.Basic
import StyleTrim.Text.Word

/-!
# Selectors against the facts about a page

A selector may match an element of a page only if every element name, id and class in it occurs
somewhere in the page. Everything else that a selector asks for cannot be told from the facts and
counts as met.
-/

namespace StyleTrim

def Simple.mayMatch (facts : Facts) : Simple -> Bool
  | .element name => facts.tags.contains (lower name)
  | .id name => facts.ids.contains name
  | .className name => facts.classes.contains name
  | _ => true

def Complex.mayMatch (facts : Facts) (c : Complex) : Bool :=
  c.compounds.all fun compound => compound.all (Simple.mayMatch facts)

/-- Some selector of the list may match. The empty list rules nothing out. -/
def SelectorList.mayMatchAny (facts : Facts) (list : SelectorList) : Bool :=
  list.isEmpty || list.any (Complex.mayMatch facts)

def alwaysKeptSelectors : List Bytes :=
  [ascii "html", ascii "body", ascii "*", ascii ":root"]

def isAlwaysKept (selector : Bytes) : Bool :=
  alwaysKeptSelectors.contains (lower (trim Byte.isBlank selector))

end StyleTrim
