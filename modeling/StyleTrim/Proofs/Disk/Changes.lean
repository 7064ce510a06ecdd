import StyleTrim.Proofs.Disk.Walks

/-!
# What a write changes

A write changes one location at most: the one where the walk along its path ends. Nothing else on
the disk changes, and a write that is refused changes nothing at all.
-/

namespace StyleTrim
namespace Disk

variable {d d' : Disk} {location other : Location} {entry : Entry}

/-!
## Entries
-/

theorem lookup_filter_of_ne (h : other ≠ location) (entries : List (Location × Entry)) :
    (entries.filter fun e => e.1 != location).lookup other = entries.lookup other := by
  induction entries with
  | nil => rfl
  | cons e entries ih =>
      rcases e with ⟨at', found⟩
      by_cases hremoved : at' = location
      · have hskip : (other == at') = false := by
          rw [hremoved]
          exact beq_eq_false_iff_ne.mpr h
        rw [List.filter_cons_of_neg (by simp [hremoved]), ih, List.lookup_cons, hskip]
      · rw [List.filter_cons_of_pos (by simpa using hremoved), List.lookup_cons, List.lookup_cons,
          ih]

theorem find?_put (h : location ≠ []) : (d.put location entry).find? location = some entry := by
  rw [find?, if_neg (by simpa using h)]
  exact List.lookup_cons_self

theorem find?_put_of_ne (h : other ≠ location) :
    (d.put location entry).find? other = d.find? other := by
  have hskip : (other == location) = false := beq_eq_false_iff_ne.mpr h
  unfold find? put
  rw [List.lookup_cons, hskip]
  dsimp only
  rw [lookup_filter_of_ne h]

/-!
## Writes
-/

/-- The entry lies at the location, and nothing else has changed. -/
structure Differs (d d' : Disk) (location : Location) (entry : Entry) : Prop where
  there : d'.find? location = some entry
  elsewhere : ∀ other, other ≠ location -> d'.find? other = d.find? other
  cwd : d'.cwd = d.cwd

theorem differs_put (h : location ≠ []) : Differs d (d.put location entry) location entry where
  there := find?_put h
  elsewhere := fun _ hne => find?_put_of_ne hne
  cwd := rfl

/-- The text is written to the place to which the path leads: it is the content of the file there
from now on, and nothing else has changed. A device takes the text and keeps none of it. -/
def Wrote (d d' : Disk) (path text : Bytes) : Prop :=
  ∃ location, d.follow true path = .ok (location, d.find? location) ∧
    (Differs d d' location (.file text) ∨
      (d.find? location = some .nullDevice ∨ d.find? location = some .fullDevice) ∧ d' = d)

theorem follow_entry {create : Bool} {path : Bytes} {found : Option Entry}
    (h : d.follow create path = .ok (location, found)) : found = d.find? location := by
  unfold follow at h
  dsimp only at h
  split at h
  · cases h
  · split at h
    · cases h
    · exact walk_entry h

theorem store_refused {path text : Bytes} {why : Refused}
    (h : d.store path text = (.error why, d')) :
    d' = d := by
  unfold store at h
  split at h
  · cases h
    rfl
  · split at h
    · cases h
      rfl
    · exact (congrArg Prod.snd h).symm
    · cases h
    · cases h

theorem store_done {path text : Bytes} (h : d.store path text = (.ok (), d')) :
    Wrote d d' path text := by
  unfold store at h
  split at h
  · cases h
  · rename_i location found hfollow
    have hfound := follow_entry hfollow
    rw [hfound] at hfollow
    refine ⟨location, hfollow, ?_⟩
    split at h
    · cases h
    · exact Or.inr ⟨Or.inr hfound.symm, (congrArg Prod.snd h).symm⟩
    · exact Or.inr ⟨Or.inl hfound.symm, (congrArg Prod.snd h).symm⟩
    · rename_i hdirectory _ _
      cases h
      refine Or.inl (differs_put ?_)
      -- The root is a directory, so it is no place for a file.
      rintro rfl
      exact hdirectory hfound

end Disk
end StyleTrim
