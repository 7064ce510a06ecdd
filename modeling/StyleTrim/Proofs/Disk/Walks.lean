import StyleTrim.Proofs.Disk.Paths

/-!
# Walks

A walk passes one name after another. How it passes a name depends on the names behind it only where
a file may be created: there the last name need not exist. So what a walk does is told by how it
passes single names.
-/

namespace StyleTrim
namespace Disk

open StyleTrim.Path (LeadsDown)

/-- Where a walk stands behind a name: the place, the links that may still be followed, and the
names to which a link has led. -/
structure Stage where
  links : Nat
  here : Location
  names : List Bytes

def pass (d : Disk) (links : Nat) (here : Location) (name : Bytes) : Except Refused Stage :=
  if !d.isDirectory here then .error .notDirectory
  else if name = [] ∨ name = Path.dot then .ok ⟨links, here, []⟩
  else if name = Path.dotDot then .ok ⟨links, here.tail, []⟩
  else if maxNameLength < name.length then .error .nameTooLong
  else
    match d.find? (name :: here) with
    | none => .error .noEntry
    | some (.link target) =>
        match links with
        | 0 => .error .tooManyLinks
        | links + 1 =>
            .ok ⟨links, if Path.isAbsolute target then [] else here, Path.segments target⟩
    | some _ => .ok ⟨links, name :: here, []⟩

variable {d : Disk} {create : Bool} {links : Nat} {here location : Location} {name : Bytes}
  {rest : List Bytes} {found : Option Entry}

theorem walk_cons (h : create = true -> ∃ more ∈ rest, more ≠ []) :
    d.walk create links here (name :: rest) =
      (d.pass links here name).bind fun next =>
        d.walk create next.links next.here (next.names ++ rest) := by
  have hslash : (create && !rest.isEmpty && rest.all List.isEmpty) = false := by
    cases create with
    | false => rfl
    | true =>
        rcases h rfl with ⟨more, hmem, hne⟩
        have hall : rest.all List.isEmpty = false :=
          List.all_eq_false.mpr ⟨more, hmem, by simpa using hne⟩
        rw [hall, Bool.and_false]
  have hlast : (create && rest.isEmpty) = false := by
    cases create with
    | false => rfl
    | true =>
        rcases h rfl with ⟨more, hmem, _⟩
        cases rest with
        | nil => cases hmem
        | cons => rfl
  rw [walk, hslash, hlast, pass]
  split
  · rfl
  · split
    · rfl
    · split
      · rfl
      · rw [if_neg Bool.false_ne_true]
        split
        · rfl
        · cases d.find? (name :: here) with
          | none => rfl
          | some entry =>
              cases entry with
              | link target => cases links <;> rfl
              | _ => rfl

theorem walk_cons_ok (h : d.walk create links here (name :: rest) = .ok (location, found)) :
    (∃ next, d.pass links here name = .ok next ∧
      d.walk create next.links next.here (next.names ++ rest) = .ok (location, found)) ∨
    (create = true ∧ rest = [] ∧ d.pass links here name = .error .noEntry ∧
      location = name :: here ∧ found = none) := by
  rw [walk] at h
  unfold pass
  split at h
  · cases h
  · rename_i hdirectory
    rw [if_neg hdirectory]
    split at h
    · rename_i hstay
      rw [if_pos hstay]
      exact Or.inl ⟨_, rfl, h⟩
    · rename_i hstay
      rw [if_neg hstay]
      split at h
      · rename_i hup
        rw [if_pos hup]
        exact Or.inl ⟨_, rfl, h⟩
      · rename_i hup
        rw [if_neg hup]
        split at h
        · cases h
        · split at h
          · cases h
          · rename_i hlength
            rw [if_neg hlength]
            cases hfind : d.find? (name :: here) with
            | none =>
                rw [hfind] at h
                dsimp only at h
                split at h
                · rename_i hlast
                  rw [Bool.and_eq_true, List.isEmpty_iff] at hlast
                  cases h
                  exact Or.inr ⟨hlast.1, hlast.2, rfl, rfl, rfl⟩
                · cases h
            | some entry =>
                rw [hfind] at h
                cases entry with
                | link target =>
                    cases links with
                    | zero => cases h
                    | succ links => exact Or.inl ⟨_, rfl, h⟩
                | _ => exact Or.inl ⟨_, rfl, h⟩

/-!
## Single names
-/

/-- How a name can be passed. -/
inductive Passed (d : Disk) (links : Nat) (here : Location) (name : Bytes) : Stage -> Prop where
  | stay (h : name = [] ∨ name = Path.dot) : Passed d links here name ⟨links, here, []⟩
  | up (h : name = Path.dotDot) : Passed d links here name ⟨links, here.tail, []⟩
  | down (entry : Entry) (hname : LeadsDown name) (hfind : d.find? (name :: here) = some entry)
      (hlink : ∀ target, entry ≠ .link target) : Passed d links here name ⟨links, name :: here, []⟩
  | link (target : Bytes) (left : Nat) (hname : LeadsDown name) (hlinks : links = left + 1)
      (hfind : d.find? (name :: here) = some (.link target)) :
      Passed d links here name
        ⟨left, if Path.isAbsolute target then [] else here, Path.segments target⟩

theorem passed_of_pass {next : Stage} (h : d.pass links here name = .ok next) :
    d.isDirectory here = true ∧ Passed d links here name next := by
  unfold pass at h
  split at h
  · cases h
  · rename_i hdirectory
    refine ⟨by simpa using hdirectory, ?_⟩
    split at h
    · rename_i hstay
      cases h
      exact .stay hstay
    · rename_i hstay
      split at h
      · rename_i hup
        cases h
        exact .up hup
      · rename_i hup
        have hname : LeadsDown name := ⟨fun e => hstay (Or.inl e), fun e => hstay (Or.inr e), hup⟩
        split at h
        · cases h
        · split at h
          · cases h
          · rename_i target hfind
            split at h
            · cases h
            · cases h
              exact .link target _ hname rfl hfind
          · rename_i entry hlink hfind
            cases h
            exact .down entry hname hfind hlink

theorem of_pass_noEntry (h : d.pass links here name = .error .noEntry) :
    d.isDirectory here = true ∧ LeadsDown name ∧ d.find? (name :: here) = none := by
  unfold pass at h
  split at h
  · cases h
  · rename_i hdirectory
    split at h
    · cases h
    · rename_i hstay
      split at h
      · cases h
      · rename_i hup
        have hname : LeadsDown name := ⟨fun e => hstay (Or.inl e), fun e => hstay (Or.inr e), hup⟩
        split at h
        · cases h
        · split at h
          · rename_i hfind
            exact ⟨by simpa using hdirectory, hname, hfind⟩
          · split at h <;> cases h
          · cases h

theorem pass_add (more : Nat) (h : d.pass links here name = .error .tooManyLinks -> more = 0) :
    d.pass (links + more) here name =
      (d.pass links here name).map fun next => { next with links := next.links + more } := by
  unfold pass at h ⊢
  split
  · rfl
  · rename_i hdirectory
    rw [if_neg hdirectory] at h
    split
    · rfl
    · rename_i hstay
      rw [if_neg hstay] at h
      split
      · rfl
      · rename_i hup
        rw [if_neg hup] at h
        split
        · rfl
        · rename_i hlength
          rw [if_neg hlength] at h
          cases hfind : d.find? (name :: here) with
          | none => rfl
          | some entry =>
              rw [hfind] at h
              cases entry with
              | link target =>
                  cases links with
                  | zero =>
                      rw [h rfl]
                      rfl
                  | succ links =>
                      rw [Nat.add_right_comm]
                      rfl
              | _ => rfl

/-!
## Whole walks
-/

theorem walk_induction {motive : Nat -> Location -> List Bytes -> Prop}
    (nil : ∀ links here, motive links here [])
    (cons : ∀ links here name rest,
      (∀ next, d.pass links here name = .ok next ->
        motive next.links next.here (next.names ++ rest)) ->
      motive links here (name :: rest))
    (links : Nat) (here : Location) (names : List Bytes) : motive links here names := by
  match names with
  | [] => exact nil links here
  | name :: rest =>
      apply cons
      intro next hpass
      exact walk_induction nil cons next.links next.here (next.names ++ rest)
termination_by (links, names.length)
decreasing_by
  rcases (passed_of_pass hpass).2 with hstay | hup | ⟨entry, hname, hfind, hlink⟩ |
    ⟨target, left, hname, rfl, hfind⟩
  · exact Prod.Lex.right _ (Nat.lt_succ_self _)
  · exact Prod.Lex.right _ (Nat.lt_succ_self _)
  · exact Prod.Lex.right _ (Nat.lt_succ_self _)
  · exact Prod.Lex.left _ _ (Nat.lt_succ_self _)

theorem walk_entry {names : List Bytes}
    (h : d.walk create links here names = .ok (location, found)) :
    found = d.find? location := by
  induction links, here, names using walk_induction (d := d) with
  | nil links here =>
      rw [walk] at h
      cases h
      rfl
  | cons links here name rest ih =>
      rcases walk_cons_ok h with ⟨next, hpass, hwalk⟩ | ⟨_, _, hpass, rfl, rfl⟩
      · exact ih next hpass hwalk
      · exact (of_pass_noEntry hpass).2.2.symm

end Disk
end StyleTrim
