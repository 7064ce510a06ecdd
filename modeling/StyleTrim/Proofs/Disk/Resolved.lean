import StyleTrim.Proofs.Disk.Trees

/-!
# Resolved paths

A path is resolved as a text, and the system walks along the text once more when it writes. Where
the path leads to something, its text is free of links, and the walk comes to the same place. Where
it does not, the part that leads to something is free of links, and the walk goes on with names that
the first walk has not passed: it ends at the first of them or fails. Only when a link stands there
does the walk go anywhere else.
-/

namespace StyleTrim
namespace Disk

open StyleTrim.Path (LeadsDown IsName IsNormal cut cutNames spell slash)

variable {d : Disk} {create : Bool} {links : Nat} {here location : Location} {name : Bytes}
  {rest : List Bytes} {found : Option Entry} {path : Bytes}

/-!
## Absolute paths
-/

theorem walk_slash (h : d.isDirectory here = true) :
    d.walk create links here ([] :: rest) = d.walk create links here rest := by
  rw [walk, if_neg (by simp [h]), if_pos (Or.inl rfl)]

theorem isAbsolute_cut (h : Path.isAbsolute path = true) : Path.isAbsolute (cut path) = true := by
  cases path with
  | nil => cases h
  | cons b path =>
      have hslash : b = slash := by simpa [Path.isAbsolute] using h
      rw [hslash, Path.cut_cons (by decide)]
      rfl

theorem follow_eq (h : Path.isAbsolute path = true) :
    d.follow create path =
      if maxPathLength < (cut path).length then .error .nameTooLong
      else d.walk create maxLinks [] (cutNames (Path.segments path).tail) := by
  have hempty : (cut path).isEmpty = false := by
    cases hcut : cut path with
    | nil =>
        have habsolute := isAbsolute_cut h
        rw [hcut] at habsolute
        cases habsolute
    | cons => rfl
  have hsegments : Path.segments (cut path) = [] :: cutNames (Path.segments path).tail := by
    rw [Path.segments_cut, Path.segments_of_isAbsolute h,
      Path.cutNames_cons_of_not_mem List.not_mem_nil, List.tail_cons]
  unfold follow
  change (if (cut path).isEmpty then _ else _) = _
  rw [hempty, if_neg Bool.false_ne_true]
  change (if maxPathLength < (cut path).length then _
    else d.walk create maxLinks (if Path.isAbsolute (cut path) then [] else d.cwd)
      (Path.segments (cut path))) = _
  rw [isAbsolute_cut h, if_pos rfl, hsegments, walk_slash (isDirectory_root d)]

theorem walk_of_follow (h : Path.isAbsolute path = true)
    (hfollow : d.follow create path = .ok (location, found)) :
    d.walk create maxLinks [] (cutNames (Path.segments path).tail) = .ok (location, found) := by
  rw [follow_eq h] at hfollow
  split at hfollow
  · cases hfollow
  · exact hfollow

theorem follow_create (h : d.follow true path = .ok (location, found)) :
    d.follow false path = .ok (location, found) ∨ d.follow false path = .error .noEntry := by
  unfold follow at h ⊢
  dsimp only at h ⊢
  split at h
  · cases h
  · rename_i hempty
    rw [if_neg hempty]
    split at h
    · cases h
    · rename_i hlength
      rw [if_neg hlength]
      exact walk_create h

theorem lands_of_follow (htree : d.IsTree) (h : d.follow false path = .ok (location, found)) :
    d.Lands location := by
  have hcwd := lands_of_isDirectory htree.cwd
  have hroot := lands_of_isDirectory (isDirectory_root d)
  unfold follow at h
  dsimp only at h
  split at h
  · cases h
  · split at h
    · cases h
    · refine lands_of_walk htree ?_ h
      split
      · exact hroot
      · exact hcwd

/-!
## Locations
-/

theorem path_cons (name : Bytes) (above : Location) :
    Location.path (name :: above) = spell above.reverse name := by
  rw [Location.path, List.reverse_cons]
  rfl

section

variable (htree : d.IsTree) (h : d.Lands here)
include htree h

theorem isName_of_lands : ∀ other ∈ here.reverse, IsName other :=
  fun other hmem => (htree.isName_of_mem h.ne_none other (List.mem_reverse.mp hmem)).1

theorem zero_not_mem_of_lands : ∀ other ∈ here.reverse, 0 ∉ other :=
  fun other hmem => (htree.isName_of_mem h.ne_none other (List.mem_reverse.mp hmem)).2

theorem leadsDown_of_lands : ∀ other ∈ here.reverse, LeadsDown other :=
  fun other hmem => (isName_of_lands htree h other hmem).toLeadsDown

theorem cutNames_of_lands (more : List Bytes) :
    cutNames (here.reverse ++ more) = here.reverse ++ cutNames more :=
  Path.cutNames_append (zero_not_mem_of_lands htree h) more

theorem cutNames_reverse_of_lands : cutNames here.reverse = here.reverse :=
  Path.cutNames_eq_self (zero_not_mem_of_lands htree h)

end

theorem isNormal_of_lands (htree : d.IsTree) {above : Location} (h : d.Lands (name :: above)) :
    IsNormal above.reverse name := by
  have hnames := isName_of_lands htree h
  rw [List.reverse_cons, List.forall_mem_append, List.forall_mem_singleton] at hnames
  exact ⟨hnames.1, Or.inr hnames.2⟩

theorem walk_from (htree : d.IsTree) (hlands : d.Lands here) {more : List Bytes}
    (h : d.walk create links [] (here.reverse ++ more) = .ok (location, found)) :
    d.walk create links here more = .ok (location, found) := by
  have hhere : here.reverse.reverse ++ [] = here := by
    rw [List.reverse_reverse, List.append_nil]
  have hdown := walk_down htree (leadsDown_of_lands htree hlands) (by rw [hhere]; exact hlands) h
  rw [hhere] at hdown
  exact hdown

/-!
## Names that were not passed
-/

theorem not_walk_slashes (hname : LeadsDown name) (hne : rest ≠ [])
    (hrest : ∀ other ∈ rest, other = []) :
    d.walk true links here (name :: rest) ≠ .ok (location, found) := by
  have hslash : (true && !rest.isEmpty && rest.all List.isEmpty) = true := by
    have hempty : rest.isEmpty = false := List.isEmpty_eq_false_iff.mpr hne
    have hall : rest.all List.isEmpty = true :=
      List.all_eq_true.mpr fun other hmem => List.isEmpty_iff.mpr (hrest other hmem)
    rw [hempty, hall]
    rfl
  intro h
  rw [walk, hslash] at h
  split at h
  · cases h
  · rw [if_neg (not_or.mpr ⟨hname.ne_nil, hname.ne_dot⟩), if_neg hname.ne_dotDot, if_pos rfl] at h
    cases h

theorem walk_missing {left : Nat} (hleft : left ≤ links) {why absent : Refused}
    (hfirst : d.walk false left here [name] = .error why)
    (hall : d.walk false left here (name :: rest) = .error absent)
    (habsent : absent.isAbsence = true)
    (h : d.walk true links here (name :: rest) = .ok (location, found)) :
    rest = [] ∧ LeadsDown name ∧
      (location = name :: here ∨ ∃ target, d.find? (name :: here) = some (.link target)) := by
  have hwhy : why = absent := by
    have hmore : d.walk false (left + 0) here ([name] ++ rest) = .error why :=
      walk_error hfirst (fun _ => rfl) fun h => absurd h Bool.false_ne_true
    exact Except.error.inj (hmore.symm.trans hall)
  rw [walk_false_cons] at hfirst
  have hlinks : d.pass left here name ≠ .error .tooManyLinks := by
    intro hpass
    rw [hpass] at hfirst
    rw [← hwhy, ← Except.error.inj hfirst] at habsent
    cases habsent
  rcases Nat.exists_eq_add_of_le hleft with ⟨more, rfl⟩
  rcases walk_cons_ok h with ⟨next, hpass, hwalk⟩ | ⟨_, hrest, hpass, hlocation, _⟩
  · rw [pass_add more fun hpass => absurd hpass hlinks] at hpass
    cases hfew : d.pass left here name with
    | error failed =>
        rw [hfew] at hpass
        cases hpass
    | ok before =>
        rw [hfew] at hfirst hpass
        cases hpass
        change d.walk false before.links before.here (before.names ++ []) = _ at hfirst
        rw [List.append_nil] at hfirst
        cases (passed_of_pass hfew).2 with
        | stay | up | down =>
            rw [walk] at hfirst
            cases hfirst
        | link target remaining hname _ hfind =>
            by_cases hslashes : ∀ other ∈ rest, other = []
            · by_cases hrest : rest = []
              · exact ⟨hrest, hname, Or.inr ⟨target, hfind⟩⟩
              · exact absurd h (not_walk_slashes hname hrest hslashes)
            · have hother : true = true -> ∃ other ∈ rest, other ≠ [] := by
                intro _
                simpa using hslashes
              have hwhy' : why = .tooManyLinks -> more = 0 := by
                rintro rfl
                rw [← hwhy] at habsent
                cases habsent
              have hfails := walk_error hfirst hwhy' hother
              cases hfails.symm.trans hwalk
  · exact ⟨hrest, (of_pass_noEntry hpass).2.1, Or.inl hlocation⟩

/-!
## Prefixes of paths
-/

theorem segments_foldl_join {names : List Bytes} (h : ∀ name ∈ names, IsName name) :
    cutNames (Path.segments (names.foldl Path.join [slash])).tail = cutNames names ∨
      (names = [] ∧ cutNames (Path.segments (names.foldl Path.join [slash])).tail = [[]]) := by
  rcases List.eq_nil_or_concat names with rfl | ⟨front, last, rfl⟩
  · exact Or.inr ⟨rfl, rfl⟩
  · rw [List.concat_eq_append] at h ⊢
    have hfront : ∀ name ∈ front, IsName name :=
      fun name hmem => h name (List.mem_append_left _ hmem)
    have hnormal : IsNormal front last :=
      ⟨hfront, Or.inr (h last (List.mem_append_right _ List.mem_cons_self))⟩
    rw [Path.foldl_join_root hfront, Path.segments_spell hnormal, List.tail_cons]
    exact Or.inl rfl

theorem walk_of_follow_join {names : List Bytes} (h : ∀ name ∈ names, IsName name)
    (hfollow : d.follow create (names.foldl Path.join [slash]) = .ok (location, found)) :
    d.walk create maxLinks [] (cutNames names) = .ok (location, found) := by
  have hwalk := walk_of_follow (Path.isAbsolute_foldl_join rfl names) hfollow
  rcases segments_foldl_join h with hcut | ⟨rfl, hcut⟩
  · rw [hcut] at hwalk
    exact hwalk
  · rw [hcut, walk_slash (isDirectory_root d)] at hwalk
    exact hwalk

theorem follow_spell {names : List Bytes} {last : Bytes} (h : IsNormal names last) :
    d.follow create (spell names last) =
      if maxPathLength < (cut (spell names last)).length then .error .nameTooLong
      else d.walk create maxLinks [] (cutNames (names ++ [last])) := by
  rw [follow_eq rfl, Path.segments_spell h, List.tail_cons]

theorem fits_of_absence (h : Path.isAbsolute path = true) {absent : Refused}
    (habsent : absent.isAbsence = true) (hfollow : d.follow create path = .error absent) :
    ¬maxPathLength < (cut path).length := by
  intro hlong
  rw [follow_eq h, if_pos hlong] at hfollow
  rw [← Except.error.inj hfollow] at habsent
  cases habsent

/-- A path that leads nowhere: its names up to `front` lead to a place, the next one does not. A
write along the names of that place and those that are left ends at the next one, or a link is
there. -/
theorem follow_missing (htree : d.IsTree) {front behind more : List Bytes} {last next : Bytes}
    {place : Location} {why absent : Refused} (hnormal : IsNormal (front ++ behind) last)
    (hrest : behind ++ [last] = next :: more)
    (hfront : d.follow false (front.foldl Path.join [slash]) = .ok (place, found))
    (hnext : d.follow false (spell front next) = .error why)
    (hall : d.follow false (spell (front ++ behind) last) = .error absent)
    (habsent : absent.isAbsence = true) {entry : Option Entry}
    (hwrite : d.follow true (spell (place.reverse ++ behind) last) = .ok (location, entry)) :
    ∃ name, cutNames (behind ++ [last]) = [name] ∧ LeadsDown name ∧
      (location = name :: place ∨ ∃ target, d.find? (name :: place) = some (.link target)) := by
  rcases List.forall_mem_append.mp hnormal.names with ⟨hfrontNames, hbehindNames⟩
  have hlands := lands_of_follow htree hfront
  have hall' : d.walk false maxLinks [] (cutNames (front ++ (behind ++ [last]))) =
      .error absent := by
    have hfits := fits_of_absence rfl habsent hall
    rw [follow_spell hnormal, if_neg hfits, List.append_assoc] at hall
    exact hall
  have hnext' : d.walk false maxLinks [] (cutNames (front ++ [next])) = .error why := by
    have hprefix : front ++ [next] <+: front ++ behind ++ [last] := by
      rw [List.append_assoc, hrest]
      exact ⟨more, by simp⟩
    have hlength := (Path.cut_prefix (Path.spell_prefix hprefix)).length_le
    have hfits : ¬maxPathLength < (cut (spell front next)).length :=
      fun hlong => fits_of_absence rfl habsent hall (Nat.lt_of_lt_of_le hlong hlength)
    rw [follow_spell (hnormal.front hrest), if_neg hfits] at hnext
    exact hnext
  have hfront' := walk_of_follow_join hfrontNames hfront
  -- A zero byte would end the text before the next name.
  have hzero : ∀ name ∈ front, 0 ∉ name := by
    intro name hmem hzero
    rw [Path.cutNames_append_of_mem ⟨name, hmem, hzero⟩, hfront'] at hnext'
    cases hnext'
  rw [Path.cutNames_eq_self hzero] at hfront'
  rcases walk_append hfront' with ⟨left, hleft, hmore⟩
  rw [Path.cutNames_append hzero, hmore] at hall' hnext'
  have hwrite' : d.walk true maxLinks place (cutNames (behind ++ [last])) =
      .ok (location, entry) := by
    have hplace : IsNormal (place.reverse ++ behind) last :=
      ⟨List.forall_mem_append.mpr ⟨isName_of_lands htree hlands, hbehindNames⟩, hnormal.last⟩
    have hwalk := walk_of_follow rfl hwrite
    rw [Path.segments_spell hplace, List.tail_cons, List.append_assoc,
      cutNames_of_lands htree hlands] at hwalk
    exact walk_from htree hlands hwalk
  rw [hrest] at hall' hwrite' ⊢
  rcases Path.cutNames_cons next more with ⟨name, rest, hfirst, hcut⟩
  rw [hfirst] at hnext'
  rw [hcut] at hall' hwrite'
  rcases walk_missing hleft hnext' hall' habsent hwrite' with ⟨hnil, hname, hends⟩
  rw [hnil] at hcut
  exact ⟨name, hcut, hname, hends⟩

/-!
## Paths of locations
-/

theorem segments_path (htree : d.IsTree) {place : Location} (hlands : d.Lands place)
    (hne : place ≠ []) : Path.segments place.path = [] :: place.reverse := by
  cases place with
  | nil => exact absurd rfl hne
  | cons name above =>
      rw [path_cons, Path.segments_spell (isNormal_of_lands htree hlands), List.reverse_cons]

theorem follow_path (htree : d.IsTree) {place : Location} (hlands : d.Lands place)
    (h : d.follow true place.path = .ok (location, found)) : location = place := by
  have hwalk := walk_of_follow rfl h
  by_cases hne : place = []
  · rw [hne] at hwalk ⊢
    change d.walk true maxLinks [] [[]] = _ at hwalk
    rw [walk_slash (isDirectory_root d), walk] at hwalk
    cases hwalk
    rfl
  · rw [segments_path htree hlands hne, List.tail_cons, cutNames_reverse_of_lands htree hlands,
      ← List.append_nil place.reverse] at hwalk
    have hplace := walk_from htree hlands hwalk
    rw [walk] at hplace
    cases hplace
    rfl

theorem elements_path (htree : d.IsTree) {place : Location} (hlands : d.Lands place)
    (hne : place ≠ []) : Path.elements place.path = [slash] :: place.reverse := by
  cases place with
  | nil => exact absurd rfl hne
  | cons name above =>
      have hsegments := segments_path htree hlands hne
      have hmem : name ∈ Path.segments (Location.path (name :: above)) := by
        rw [hsegments]
        simp
      have hname := (htree.isName_of_mem hlands.ne_none name List.mem_cons_self).1
      rw [Path.elements_of_isName hmem hname.ne_nil, hsegments, List.tail_cons]

end Disk
end StyleTrim
