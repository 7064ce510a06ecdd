import StyleTrim.Text.Byte

/-!
# Sets of names

A set of names is a strictly increasing list, in the order of their bytes. That order is the one
in which a set is shown.
-/

namespace StyleTrim

abbrev NameSet := List Bytes

namespace NameSet

def insert (name : Bytes) : NameSet -> NameSet
  | [] => [name]
  | other :: set =>
      if name < other then name :: other :: set
      else if name = other then other :: set
      else other :: insert name set

def ofList (names : List Bytes) : NameSet :=
  names.foldl (fun set name => insert name set) []

theorem mem_insert {name x : Bytes} {set : NameSet} :
    x ∈ insert name set ↔ x = name ∨ x ∈ set := by
  induction set with
  | nil => simp [insert]
  | cons other set ih =>
      unfold insert
      split
      · simp
      · split
        · rename_i h
          subst h
          simp
        · simp only [List.mem_cons, ih]
          constructor
          · rintro (h | h | h) <;> simp [h]
          · rintro (h | h | h) <;> simp [h]

theorem mem_foldl_insert {x : Bytes} {names : List Bytes} {set : NameSet} :
    x ∈ names.foldl (fun set name => insert name set) set ↔ x ∈ names ∨ x ∈ set := by
  induction names generalizing set with
  | nil => simp
  | cons name names ih =>
      simp only [List.foldl_cons, ih, mem_insert, List.mem_cons]
      constructor
      · rintro (h | h | h) <;> simp [h]
      · rintro ((h | h) | h) <;> simp [h]

theorem mem_ofList {x : Bytes} {names : List Bytes} : x ∈ ofList names ↔ x ∈ names := by
  simp [ofList, mem_foldl_insert]

end NameSet
end StyleTrim
