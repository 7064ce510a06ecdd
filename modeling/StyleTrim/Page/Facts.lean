import StyleTrim.Text.NameSet

/-!
# Facts about a page

All that is known of a page are the names that occur in it: of its elements, in small letters,
and the ids, classes and attributes.
-/

namespace StyleTrim

structure Facts where
  tags : NameSet
  ids : NameSet
  classes : NameSet
  attributes : NameSet

end StyleTrim
