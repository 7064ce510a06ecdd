import StyleTrim.Proofs.Disk.Walks

/-!
# Trees

On a disk that is a tree everything lies in a directory. So the location to which a walk leads is
free of links all the way up, and a walk along its names comes back to it.
-/

namespace StyleTrim
namespace Disk

open StyleTrim.Path (LeadsDown IsName)

/-- Everything lies in a directory, under a name that a path can spell. -/
structure IsTree (d : Disk) : Prop where
  parent : ∀ {name : Bytes} {above : Location},
    d.find? (name :: above) ≠ none -> d.isDirectory above = true
  isName : ∀ {name : Bytes} {above : Location},
    d.find? (name :: above) ≠ none -> IsName name ∧ 0 ∉ name
  cwd : d.isDirectory d.cwd = true

variable {d : Disk} {create : Bool} {links : Nat} {here location : Location} {name : Bytes}
  {names : List Bytes} {found : Option Entry}

theorem isDirectory_iff : d.isDirectory here = true ↔ d.find? here = some .directory :=
  beq_iff_eq

theorem isDirectory_root (d : Disk) : d.isDirectory [] = true :=
  rfl

def Lands (d : Disk) (location : Location) : Prop :=
  ∃ entry, d.find? location = some entry ∧ ∀ target, entry ≠ .link target

theorem lands_of_isDirectory (h : d.isDirectory here = true) : d.Lands here :=
  ⟨.directory, isDirectory_iff.mp h, fun _ => Entry.noConfusion⟩

theorem Lands.ne_none (h : d.Lands here) : d.find? here ≠ none := by
  rcases h with ⟨entry, hfind, _⟩
  rw [hfind]
  exact Option.some_ne_none entry

def InPlace (d : Disk) : Location -> Prop
  | [] => False
  | name :: above => d.isDirectory above = true ∧ IsName name ∧ 0 ∉ name

instance (d : Disk) : DecidablePred d.InPlace
  | [] => inferInstanceAs (Decidable False)
  | name :: above =>
      inferInstanceAs (Decidable (d.isDirectory above = true ∧ IsName name ∧ 0 ∉ name))

theorem mem_of_find? {entry : Entry} (h : d.find? (name :: here) = some entry) :
    (name :: here, entry) ∈ d.entries := by
  rcases List.lookup_eq_some_iff.mp h with ⟨front, back, hentries, _⟩
  rw [hentries]
  exact List.mem_append_right _ List.mem_cons_self

theorem isTree_of_entries (hentries : ∀ e ∈ d.entries, d.InPlace e.1)
    (hcwd : d.isDirectory d.cwd = true) : d.IsTree := by
  have hplace : ∀ {name : Bytes} {above : Location},
      d.find? (name :: above) ≠ none -> d.InPlace (name :: above) := by
    intro name above h
    rcases Option.ne_none_iff_exists'.mp h with ⟨entry, hfind⟩
    exact hentries _ (mem_of_find? hfind)
  exact ⟨fun h => (hplace h).1, fun h => (hplace h).2, hcwd⟩

namespace IsTree

variable (htree : d.IsTree)
include htree

theorem tail (h : d.isDirectory here = true) : d.isDirectory here.tail = true := by
  cases here with
  | nil => exact isDirectory_root d
  | cons name above => exact htree.parent (lands_of_isDirectory h).ne_none

theorem above {front : Location} (hne : front ≠ []) (h : d.find? (front ++ here) ≠ none) :
    d.isDirectory here = true := by
  induction front with
  | nil => exact absurd rfl hne
  | cons name front ih =>
      have hparent := htree.parent h
      cases front with
      | nil => exact hparent
      | cons next front =>
          exact ih (List.cons_ne_nil _ _) (lands_of_isDirectory hparent).ne_none

theorem isName_of_mem (h : d.find? here ≠ none) : ∀ name ∈ here, IsName name ∧ 0 ∉ name := by
  induction here with
  | nil => exact List.forall_mem_nil _
  | cons name above ih =>
      have habove := (lands_of_isDirectory (htree.parent h)).ne_none
      exact List.forall_mem_cons.mpr ⟨htree.isName h, ih habove⟩

end IsTree

/-!
## Walks to what exists
-/

theorem walk_false_cons {rest : List Bytes} :
    d.walk false links here (name :: rest) =
      (d.pass links here name).bind fun next =>
        d.walk false next.links next.here (next.names ++ rest) :=
  walk_cons fun h => absurd h Bool.false_ne_true

theorem walk_pass {next : Stage} (h : d.pass links here name = .ok next) (rest : List Bytes) :
    d.walk false links here (name :: rest) =
      d.walk false next.links next.here (next.names ++ rest) := by
  rw [walk_false_cons, h]
  rfl

theorem lands_of_walk (htree : d.IsTree) (hhere : d.Lands here)
    (h : d.walk false links here names = .ok (location, found)) : d.Lands location := by
  induction links, here, names using walk_induction (d := d) with
  | nil links here =>
      rw [walk] at h
      cases h
      exact hhere
  | cons links here name rest ih =>
      rcases walk_cons_ok h with ⟨next, hpass, hwalk⟩ | ⟨hcreate, _⟩
      · refine ih next hpass ?_ hwalk
        rcases passed_of_pass hpass with ⟨hdirectory, hpassed⟩
        cases hpassed with
        | stay => exact hhere
        | up => exact lands_of_isDirectory (htree.tail hdirectory)
        | down entry _ hfind hlink => exact ⟨entry, hfind, hlink⟩
        | link target =>
            dsimp only
            split
            · exact lands_of_isDirectory (isDirectory_root d)
            · exact hhere
      · cases hcreate

theorem walk_create (h : d.walk true links here names = .ok (location, found)) :
    d.walk false links here names = .ok (location, found) ∨
      d.walk false links here names = .error .noEntry := by
  induction links, here, names using walk_induction (d := d) with
  | nil links here =>
      rw [walk] at h ⊢
      exact Or.inl h
  | cons links here name rest ih =>
      rw [walk_false_cons]
      rcases walk_cons_ok h with ⟨next, hpass, hwalk⟩ | ⟨_, _, hpass, _⟩
      · rw [hpass]
        exact ih next hpass hwalk
      · rw [hpass]
        exact Or.inr rfl

theorem walk_append (h : d.walk false links here names = .ok (location, found)) :
    ∃ left, left ≤ links ∧ ∀ more,
      d.walk false links here (names ++ more) = d.walk false left location more := by
  induction links, here, names using walk_induction (d := d) with
  | nil links here =>
      rw [walk] at h
      cases h
      exact ⟨links, Nat.le_refl links, fun _ => rfl⟩
  | cons links here name rest ih =>
      rcases walk_cons_ok h with ⟨next, hpass, hwalk⟩ | ⟨hcreate, _⟩
      · rcases ih next hpass hwalk with ⟨left, hleft, hmore⟩
        refine ⟨left, ?_, ?_⟩
        · cases (passed_of_pass hpass).2 with
          | link target before _ hlinks =>
              rw [hlinks]
              exact Nat.le_succ_of_le hleft
          | _ => exact hleft
        · intro more
          rw [List.cons_append, walk_false_cons, hpass]
          change d.walk false next.links next.here (next.names ++ (rest ++ more)) = _
          rw [← List.append_assoc]
          exact hmore more
      · cases hcreate

theorem walk_error {why : Refused} (h : d.walk false links here names = .error why) {more : Nat}
    (hmore : why = .tooManyLinks -> more = 0) {behind : List Bytes}
    (hbehind : create = true -> ∃ name ∈ behind, name ≠ []) :
    d.walk create (links + more) here (names ++ behind) = .error why := by
  induction links, here, names using walk_induction (d := d) with
  | nil links here =>
      rw [walk] at h
      cases h
  | cons links here name rest ih =>
      have hnames : create = true -> ∃ name ∈ rest ++ behind, name ≠ [] := by
        intro hcreate
        rcases hbehind hcreate with ⟨name, hmem, hne⟩
        exact ⟨name, List.mem_append_right _ hmem, hne⟩
      rw [walk_false_cons] at h
      rw [List.cons_append, walk_cons hnames]
      cases hpass : d.pass links here name with
      | error failed =>
          have hlinks : d.pass links here name = .error .tooManyLinks -> more = 0 := by
            intro hlinks
            rw [hpass] at h hlinks
            exact hmore ((Except.error.inj h).symm.trans (Except.error.inj hlinks))
          rw [hpass] at h
          rw [pass_add more hlinks, hpass]
          exact h
      | ok next =>
          have hlinks : d.pass links here name = .error .tooManyLinks -> more = 0 := by
            intro hlinks
            rw [hpass] at hlinks
            cases hlinks
          have hnext := ih next hpass (by rw [hpass] at h; exact h)
          rw [List.append_assoc] at hnext
          rw [pass_add more hlinks, hpass]
          exact hnext

theorem walk_down (htree : d.IsTree) (hnames : ∀ name ∈ names, LeadsDown name)
    (hlands : d.Lands (names.reverse ++ here)) {behind : List Bytes}
    (h : d.walk create links here (names ++ behind) = .ok (location, found)) :
    d.walk create links (names.reverse ++ here) behind = .ok (location, found) := by
  induction names generalizing here with
  | nil => exact h
  | cons name names ih =>
      rcases List.forall_mem_cons.mp hnames with ⟨hname, hnames⟩
      rw [List.reverse_cons, List.append_assoc] at hlands ⊢
      -- What the name leads to is a directory, or the end of the way, and so it is no link.
      have hnext : d.Lands (name :: here) := by
        cases names with
        | nil => exact hlands
        | cons other names =>
            exact lands_of_isDirectory (htree.above (by simp) hlands.ne_none)
      apply ih hnames hlands
      rcases walk_cons_ok h with ⟨next, hpass, hwalk⟩ | ⟨_, _, hpass, _⟩
      · cases (passed_of_pass hpass).2 with
        | stay hstay => exact absurd hstay (not_or.mpr ⟨hname.ne_nil, hname.ne_dot⟩)
        | up hup => exact absurd hup hname.ne_dotDot
        | down => exact hwalk
        | link target left _ _ hfind =>
            rcases hnext with ⟨entry, hentry, hlink⟩
            rw [hfind] at hentry
            cases hentry
            exact absurd rfl (hlink target)
      · exact absurd (of_pass_noEntry hpass).2.2 hnext.ne_none

theorem walk_slashes (hnames : ∀ name ∈ names, name = []) (h : d.isDirectory here = true) :
    d.walk create links here names = .ok (here, d.find? here) := by
  induction names with
  | nil => rw [walk]
  | cons name names ih =>
      rcases List.forall_mem_cons.mp hnames with ⟨hname, hrest⟩
      rw [walk, if_neg (by simp [h]), if_pos (Or.inl hname)]
      exact ih hrest

end Disk
end StyleTrim
