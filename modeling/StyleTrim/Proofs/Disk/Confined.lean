import StyleTrim.Proofs.Disk.Resolved
import StyleTrim.Proofs.Job.Writing

/-!
# Confined writes

A job that is given a base directory writes nowhere else, so long as no link stands where its output
path ends. A link that leads nowhere yet is not seen when the path is resolved, and the write goes
through it.
-/

namespace StyleTrim
namespace Disk

open StyleTrim.Path (LeadsDown IsName IsNormal cut cutNames spell slash)
open Job

variable {d d' : Disk} {location : Location} {found : Option Entry} {path : Bytes}

/-!
## Resolving on a disk
-/

/-- The path with the links in its existing part resolved. -/
def realPath (d : Disk) (path : Bytes) : Bytes :=
  ((host.resolveLinks path).run d).1

/-- The base directory of a job as it is compared with paths. -/
def realBase (d : Disk) (base : Bytes) : Bytes :=
  d.realPath (Path.normalize d.cwd.path base)

theorem locate_run (d : Disk) (path : Bytes) : (host.locate path).run d = (d.locate path, d) :=
  rfl

theorem followPrefix_run (d : Disk) (known real : Bytes) (elements : List Bytes) :
    ∃ front rest place, elements = front ++ rest ∧
      (host.followPrefix known real elements).run d = ((place, rest), d) ∧
      (front = [] ∧ place = real ∨ d.locate (front.foldl Path.join known) = .ok place) ∧
      ∀ next more, rest = next :: more ->
        ∃ why, d.locate (Path.join (front.foldl Path.join known) next) = .error why := by
  induction elements generalizing known real with
  | nil =>
      refine ⟨[], [], real, rfl, rfl, Or.inl ⟨rfl, rfl⟩, ?_⟩
      intro next more hrest
      cases hrest
  | cons element elements ih =>
      rw [Host.followPrefix, run_bind_of_run (locate_run d _)]
      cases hlocate : d.locate (Path.join known element) with
      | error why =>
          refine ⟨[], element :: elements, real, rfl, rfl, Or.inl ⟨rfl, rfl⟩, ?_⟩
          intro next more hrest
          cases hrest
          exact ⟨why, hlocate⟩
      | ok next =>
          rcases ih (Path.join known element) next with
            ⟨front, rest, place, rfl, hrun, hplace, hnext⟩
          refine ⟨element :: front, rest, place, rfl, hrun, Or.inr ?_, hnext⟩
          rcases hplace with ⟨rfl, rfl⟩ | hplace
          · exact hlocate
          · exact hplace

theorem realPath_of_ok {real : Bytes} (h : d.locate path = .ok real) : d.realPath path = real := by
  rw [realPath, Host.resolveLinks, run_bind_of_run (locate_run d path), h]
  rfl

theorem realPath_of_error {why : Refused} (h : d.locate path = .error why)
    (hwhy : why.isAbsence = false) : d.realPath path = path := by
  rw [realPath, Host.resolveLinks, run_bind_of_run (locate_run d path), h]
  dsimp only
  rw [hwhy]
  rfl

theorem realPath_of_absence {why : Refused} (h : d.locate path = .error why)
    (hwhy : why.isAbsence = true) :
    ∃ front rest place, Path.elements path = front ++ rest ∧
      (front = [] ∧ place = [] ∨ d.locate (front.foldl Path.join []) = .ok place) ∧
      (∀ next more, rest = next :: more ->
        ∃ why, d.locate (Path.join (front.foldl Path.join []) next) = .error why) ∧
      d.realPath path = Path.normalForm (rest.foldl Path.join place) := by
  rcases followPrefix_run d [] [] (Path.elements path) with
    ⟨front, rest, place, helements, hrun, hplace, hnext⟩
  refine ⟨front, rest, place, helements, hplace, hnext, ?_⟩
  rw [realPath, Host.resolveLinks, run_bind_of_run (locate_run d path), h]
  dsimp only
  rw [hwhy, if_pos rfl, run_bind_of_run hrun]
  rfl

theorem follow_of_locate {real : Bytes} (h : d.locate path = .ok real) :
    ∃ place entry, real = Location.path place ∧ d.follow false path = .ok (place, entry) := by
  unfold locate at h
  split at h
  · rename_i place entry hfollow
    cases h
    exact ⟨place, entry, rfl, hfollow⟩
  · cases h

theorem follow_of_locate_error {why : Refused} (h : d.locate path = .error why) :
    d.follow false path = .error why := by
  unfold locate at h
  split at h
  · cases h
  · rename_i hfollow
    rw [hfollow, Except.error.inj h]

/-!
## Where a write ends
-/

theorem follow_root (d : Disk) : d.follow false [slash] = .ok ([], some .directory) := by
  rw [follow_eq rfl, if_neg (by decide)]
  change d.walk false maxLinks [] [[]] = _
  rw [walk_slash (isDirectory_root d), walk]
  rfl

theorem not_absence_of_isRoot (hroot : Path.isRoot path = true) {absent : Refused}
    (habsent : absent.isAbsence = true) : d.follow false path ≠ .error absent := by
  have hall : path.all (· == slash) = true := by
    rw [Path.isRoot, Bool.and_eq_true] at hroot
    exact hroot.2
  have habsolute : Path.isAbsolute path = true := by
    cases path with
    | nil => cases hroot
    | cons b path =>
        rw [List.all_cons, Bool.and_eq_true] at hall
        simpa [Path.isAbsolute] using hall.1
  have hnames : ∀ name ∈ (Path.segments path).tail, name = [] :=
    fun name hmem => Path.segments_of_isRoot hall name (List.mem_of_mem_tail hmem)
  intro hfollow
  have hfits := fits_of_absence habsolute habsent hfollow
  rw [follow_eq habsolute, if_neg hfits, Path.cutNames_slashes hnames,
    walk_slashes hnames (isDirectory_root d)] at hfollow
  cases hfollow

theorem foldl_join_path {place : Location} (hplace : ∀ name ∈ place.reverse, IsName name)
    {behind : List Bytes} (hbehind : ∀ name ∈ behind, IsName name) (last : Bytes) :
    (behind ++ [last]).foldl Path.join place.path = spell (place.reverse ++ behind) last := by
  cases place with
  | nil => exact Path.foldl_join_root hbehind last
  | cons name above =>
      have hname := hplace name (List.mem_reverse.mpr List.mem_cons_self)
      rw [path_cons, Path.foldl_join_spell hname _ hbehind,
        List.reverse_cons, List.append_assoc]
      rfl

theorem realPath_missing (htree : d.IsTree) {names : List Bytes} {last : Bytes}
    (hnormal : IsNormal names last) (hroot : Path.isRoot (spell names last) = false)
    {absent : Refused} (hlocate : d.locate (spell names last) = .error absent)
    (habsent : absent.isAbsence = true) :
    ∃ front behind next more place entry why,
      names = front ++ behind ∧ behind ++ [last] = next :: more ∧
      d.follow false (front.foldl Path.join [slash]) = .ok (place, entry) ∧
      d.follow false (spell front next) = .error why ∧
      d.realPath (spell names last) = spell (place.reverse ++ behind) last := by
  have helements : Path.elements (spell names last) = [slash] :: (names ++ [last]) := by
    rw [Path.elements, hroot, Path.segments_spell hnormal]
    rfl
  rcases realPath_of_absence hlocate habsent with
    ⟨taken, rest, real, hsplit, hreal, hnext, hrealPath⟩
  rw [helements] at hsplit
  cases taken with
  | nil =>
      -- The root is there, so it is among the elements that were passed.
      rcases hnext [slash] (names ++ [last]) hsplit.symm with ⟨why, hwhy⟩
      have hslash : d.follow false [slash] = .error why := follow_of_locate_error hwhy
      rw [follow_root] at hslash
      cases hslash
  | cons first front =>
      rw [List.cons_append, List.cons.injEq] at hsplit
      rcases hsplit with ⟨rfl, hsplit⟩
      have hplace : d.locate (front.foldl Path.join [slash]) = .ok real :=
        hreal.resolve_left fun hnil => absurd hnil.1 (List.cons_ne_nil _ _)
      rcases List.eq_nil_or_concat rest with rfl | ⟨behind, last', rfl⟩
      · rw [List.append_nil] at hsplit
        rw [← hsplit, Path.foldl_join_root hnormal.names, hlocate] at hplace
        cases hplace
      · rw [List.concat_eq_append, ← List.append_assoc] at hsplit
        rcases List.append_inj' hsplit rfl with ⟨rfl, hlast⟩
        cases hlast
        rcases List.forall_mem_append.mp hnormal.names with ⟨hfront, hbehind⟩
        rcases List.exists_cons_of_ne_nil (List.concat_ne_nil last behind) with ⟨next, more, hrest⟩
        rcases hnext next more (List.concat_eq_append.trans hrest) with ⟨why, hwhy⟩
        rcases follow_of_locate hplace with ⟨place, entry, rfl, hfollow⟩
        have hjoin : Path.join (front.foldl Path.join [slash]) next = spell front next := by
          rw [← Path.foldl_join_root hfront, List.foldl_append]
          rfl
        have hnames := isName_of_lands htree (lands_of_follow htree hfollow)
        have hspell : IsNormal (place.reverse ++ behind) last :=
          ⟨List.forall_mem_append.mpr ⟨hnames, hbehind⟩, hnormal.last⟩
        refine ⟨front, behind, next, more, place, entry, why, rfl, hrest, hfollow, ?_, ?_⟩
        · rw [← hjoin]
          exact follow_of_locate_error hwhy
        · rw [hrealPath, List.concat_eq_append, foldl_join_path hnames hbehind,
            Path.normalForm_spell hspell]

theorem names_of_missing (htree : d.IsTree) {place : Location} (hlands : d.Lands place)
    {behind : List Bytes} {last name : Bytes} (hnormal : IsNormal behind last)
    (hcut : cutNames (behind ++ [last]) = [name]) (hname : LeadsDown name) :
    let path := spell (place.reverse ++ behind) last
    let names := place.reverse ++ (behind ++ [last])
    Path.elements path = [slash] :: names ∧ cutNames names = (name :: place).reverse ∧
      Path.location path = name :: place := by
  intro path names
  have hsegments : Path.segments path = [] :: names := by
    have hspell : IsNormal (place.reverse ++ behind) last :=
      ⟨List.forall_mem_append.mpr ⟨isName_of_lands htree hlands, hnormal.names⟩, hnormal.last⟩
    rw [Path.segments_spell hspell, List.append_assoc]
  have hnames : cutNames names = (name :: place).reverse := by
    rw [cutNames_of_lands htree hlands, hcut, List.reverse_cons]
  have hdown : ∀ other ∈ (name :: place).reverse, LeadsDown other := by
    rw [List.reverse_cons]
    exact List.forall_mem_append.mpr
      ⟨leadsDown_of_lands htree hlands, List.forall_mem_singleton.mpr hname⟩
  refine ⟨?_, hnames, ?_⟩
  · have hmem : ∃ s ∈ behind ++ [last], s ≠ [] := by
      by_contra hnone
      have hall : ∀ s ∈ behind ++ [last], s = [] := by
        intro s hs
        by_contra hne
        exact hnone ⟨s, hs, hne⟩
      rw [Path.cutNames_slashes hall] at hcut
      rw [hcut] at hall
      exact hname.ne_nil (hall name List.mem_cons_self)
    rcases hmem with ⟨s, hs, hne⟩
    have hin : s ∈ Path.segments path := by
      rw [hsegments]
      exact List.mem_cons_of_mem _ (List.mem_append_right _ hs)
    rw [Path.elements_of_isName hin hne, hsegments, List.tail_cons]
  · rw [Path.location_of_cutNames rfl (by rw [hsegments, List.tail_cons, hnames]; exact hdown),
      hsegments, List.tail_cons, hnames, List.reverse_reverse]

def Spells (path : Bytes) (location : Location) : Prop :=
  ∃ names, Path.elements path = [slash] :: names ∧
    (∀ name ∈ cutNames names, LeadsDown name) ∧ location = (cutNames names).reverse

theorem spells_of_missing (htree : d.IsTree) {names : List Bytes} {last : Bytes}
    (hnormal : IsNormal names last) (hroot : Path.isRoot (spell names last) = false)
    {absent : Refused} (hlocate : d.locate (spell names last) = .error absent)
    (habsent : absent.isAbsence = true)
    (hlink : ∀ target,
      d.find? (Path.location (d.realPath (spell names last))) ≠ some (.link target))
    (h : d.follow true (d.realPath (spell names last)) = .ok (location, found)) :
    Spells (d.realPath (spell names last)) location := by
  rcases realPath_missing htree hnormal hroot hlocate habsent with
    ⟨front, behind, next, more, place, entry, missing, rfl, hrest, hfront, hnext, hreal⟩
  have hlands := lands_of_follow htree hfront
  have hbehind := (List.forall_mem_append.mp hnormal.names).2
  rw [hreal] at h hlink ⊢
  rcases follow_missing htree hnormal hrest hfront hnext (follow_of_locate_error hlocate) habsent h
    with ⟨name, hcut, hname, hends⟩
  rcases names_of_missing htree hlands ⟨hbehind, hnormal.last⟩ hcut hname with
    ⟨helements, hnames, hlocation⟩
  refine ⟨_, helements, ?_, ?_⟩
  · rw [hnames, List.reverse_cons]
    exact List.forall_mem_append.mpr ⟨leadsDown_of_lands htree hlands,
      List.forall_mem_singleton.mpr hname⟩
  · rw [hnames, List.reverse_reverse]
    refine hends.resolve_right ?_
    rintro ⟨target, hfind⟩
    rw [hlocation] at hlink
    exact hlink target hfind

theorem realPath_nil (d : Disk) : d.realPath [] = [] := by
  have hlocate : d.locate [] = .error .noEntry := rfl
  rcases realPath_of_absence hlocate rfl with
    ⟨front, rest, place, helements, hplace, _, hreal⟩
  rcases List.append_eq_nil_iff.mp helements.symm with ⟨rfl, rfl⟩
  rcases hplace with ⟨_, rfl⟩ | hplace
  · exact hreal
  · cases hplace

theorem spells_realPath (htree : d.IsTree)
    (hpath : path = [] ∨ Path.isRoot path = true ∨
      ∃ names last, IsNormal names last ∧ path = spell names last)
    (hlink : ∀ target, d.find? (Path.location (d.realPath path)) ≠ some (.link target))
    (h : d.follow true (d.realPath path) = .ok (location, found)) (hne : location ≠ []) :
    Spells (d.realPath path) location := by
  cases hlocate : d.locate path with
  | ok real =>
      rcases follow_of_locate hlocate with ⟨place, entry, rfl, hfollow⟩
      have hlands := lands_of_follow htree hfollow
      rw [realPath_of_ok hlocate] at h ⊢
      have hplace := follow_path htree hlands h
      rw [hplace] at hne ⊢
      have hcut := cutNames_reverse_of_lands htree hlands
      refine ⟨place.reverse, elements_path htree hlands hne, ?_, ?_⟩
      · rw [hcut]
        exact leadsDown_of_lands htree hlands
      · rw [hcut, List.reverse_reverse]
  | error why =>
      have hfollow := follow_of_locate_error hlocate
      cases hwhy : why.isAbsence with
      | false =>
          -- What cannot be read cannot be written either.
          rw [realPath_of_error hlocate hwhy] at h
          rcases follow_create h with hok | hnone
          · rw [hfollow] at hok
            cases hok
          · rw [hfollow] at hnone
            cases hnone
            cases hwhy
      | true =>
          by_cases hroot : Path.isRoot path = true
          · exact absurd hfollow (not_absence_of_isRoot hroot hwhy)
          · rcases hpath with rfl | hpath | ⟨names, last, hnormal, rfl⟩
            · rw [realPath_nil] at h
              cases h
            · exact absurd hpath hroot
            · rw [Bool.not_eq_true] at hroot
              exact spells_of_missing htree hnormal hroot hlocate hwhy hlink h

/-!
## The base directory
-/

theorem isAbsolute_realPath (h : Path.isAbsolute path = true) :
    Path.isAbsolute (d.realPath path) = true := by
  cases hlocate : d.locate path with
  | ok real =>
      rcases follow_of_locate hlocate with ⟨place, entry, rfl, _⟩
      rw [realPath_of_ok hlocate]
      rfl
  | error why =>
      cases hwhy : why.isAbsence with
      | false =>
          rw [realPath_of_error hlocate hwhy]
          exact h
      | true =>
          rcases realPath_of_absence hlocate hwhy with
            ⟨front, rest, real, helements, hreal, _, hrealPath⟩
          rw [hrealPath]
          apply Path.isAbsolute_normalForm
          rcases hreal with ⟨rfl, rfl⟩ | hreal
          · rw [List.nil_append] at helements
            rw [← helements]
            unfold Path.elements
            split
            · rename_i hempty
              rw [List.isEmpty_iff.mp hempty] at h
              cases h
            · split
              · exact h
              · rw [List.foldl_cons]
                exact Path.isAbsolute_foldl_join rfl _
          · rcases follow_of_locate hreal with ⟨place, entry, rfl, _⟩
            exact Path.isAbsolute_foldl_join rfl rest

theorem normalize_cases (cwd path : Bytes) :
    Path.normalize cwd path = [] ∨ Path.isRoot (Path.normalize cwd path) = true ∨
      ∃ names last, IsNormal names last ∧ Path.normalize cwd path = spell names last := by
  unfold Path.normalize
  generalize Path.absolute cwd path = whole
  by_cases hne : whole = []
  · rw [hne]
    exact Or.inl rfl
  · cases hroot : Path.isRoot whole with
    | true =>
        rw [Path.normalForm, hroot, Bool.or_true, if_pos rfl]
        exact Or.inr (Or.inl hroot)
    | false => exact Or.inr (Or.inr (Path.exists_spell_normalForm hne hroot))

theorem resolve_eq {base : Bytes} (hbase : base ≠ []) :
    d.resolve base path =
      if Path.isWithin (Path.elements (d.realPath (Path.normalize d.cwd.path path)))
          (Path.elements (d.realBase base)) then
        .ok (d.realPath (Path.normalize d.cwd.path path))
      else .error (Host.outside path base) := by
  have hnormalize : ∀ text, (host.normalize text).run d = (Path.normalize d.cwd.path text, d) :=
    fun _ => rfl
  have hreal : ∀ text, (host.resolveLinks text).run d = (d.realPath text, d) :=
    fun text => (steady_host.resolveLinks text).run_eq d
  have hempty : base.isEmpty = false := List.isEmpty_eq_false_iff.mpr hbase
  rw [resolve, Host.resolve, hempty, if_neg Bool.false_ne_true, Host.validate,
    run_bind_of_run (hnormalize base), run_bind_of_run (hreal _),
    run_bind_of_run (hnormalize path), run_bind_of_run (hreal _), realBase]
  split <;> rfl

theorem location_realBase (htree : d.IsTree) {base : Bytes} {place : Location}
    (h : d.follow false (Path.normalize d.cwd.path base) = .ok (place, found)) :
    Path.location (d.realBase base) = place := by
  have hlands := lands_of_follow htree h
  have hlocate : d.locate (Path.normalize d.cwd.path base) = .ok place.path := by
    rw [locate, h]
  rw [realBase, realPath_of_ok hlocate]
  by_cases hne : place = []
  · rw [hne]
    rfl
  · have hnames := cutNames_reverse_of_lands htree hlands
    have htail : (Path.segments place.path).tail = place.reverse := by
      rw [segments_path htree hlands hne, List.tail_cons]
    have hdown : ∀ name ∈ cutNames (Path.segments place.path).tail, LeadsDown name := by
      rw [htail, hnames]
      exact leadsDown_of_lands htree hlands
    rw [Path.location_of_cutNames rfl hdown, htail, hnames, List.reverse_reverse]

theorem wrote_within (htree : d.IsTree) {base place text : Bytes} (hbase : base ≠ [])
    (hresolve : d.resolve base path = .ok place)
    (hlink : ∀ target, d.find? (Path.location place) ≠ some (.link target))
    (hwrote : d.Wrote d' place text) (location : Location) :
    d'.find? location = d.find? location ∨ Path.location (d.realBase base) <:+ location := by
  rcases hwrote with ⟨ends, hfollow, hdiffers | ⟨_, hsame⟩⟩
  · by_cases hends : location = ends
    · right
      have hne : ends ≠ [] := by
        rintro rfl
        cases hdiffers.there
      rw [resolve_eq hbase] at hresolve
      split at hresolve
      · rename_i hwithin
        cases hresolve
        rcases spells_realPath htree (normalize_cases _ _) hlink hfollow hne with
          ⟨names, helements, hnames, hlocation⟩
        have habsolute : Path.isAbsolute (d.realBase base) = true :=
          isAbsolute_realPath (Path.isAbsolute_normalize rfl hbase)
        rw [hends, hlocation]
        exact Path.location_suffix helements hnames habsolute hwithin
      · cases hresolve
    · exact Or.inl (hdiffers.elsewhere location hends)
  · rw [hsame]
    exact Or.inl rfl

/-- No link stands where the path ends once it is resolved. -/
def EndsInNoLink (d : Disk) (base path : Bytes) : Prop :=
  ∀ place, d.resolve base path = .ok place ->
    ∀ target, d.find? (Path.location place) ≠ some (.link target)

/-- With a base directory, a job whose output path does not end in a link changes nothing outside
that directory, whatever links there are on the disk. -/
theorem writes_confined {d : Disk} (htree : d.IsTree) {base output : Bytes} (hbase : base ≠ [])
    (hlink : d.EndsInNoLink base output) :
    (∀ place found, d.follow false (Path.normalize d.cwd.path base) = .ok (place, found) ->
      Path.location (d.realBase base) = place) ∧
    (∀ q : FilterRequest, q.baseDirectory = base -> q.outputPath = output -> ∀ location,
      ((filter host q).run d).2.find? location = d.find? location ∨
        Path.location (d.realBase base) <:+ location) ∧
    (∀ q : MergeRequest, q.baseDirectory = base -> q.outputPath = output -> ∀ location,
      ((merge host q).run d).2.find? location = d.find? location ∨
        Path.location (d.realBase base) <:+ location) := by
  refine ⟨fun place found h => location_realBase htree h, ?_, ?_⟩
  · rintro q rfl rfl location
    rcases d.filter_writes q with ⟨_, hsame⟩ | ⟨_, _, _, _, _, _, hplace, _, _, _, hwrote, _⟩
    · rw [hsame]
      exact Or.inl rfl
    · exact wrote_within htree hbase hplace (hlink _ hplace) hwrote location
  · rintro q rfl rfl location
    rcases d.merge_writes q with ⟨_, hsame⟩ | ⟨_, hplace, hwrote, _⟩
    · rw [hsame]
      exact Or.inl rfl
    · exact wrote_within htree hbase hplace (hlink _ hplace) hwrote location

def linkedSite : Disk :=
  { entries :=
      [([ascii "site"], .directory), ([ascii "out"], .directory),
        ([ascii "css", ascii "site"], .directory),
        ([ascii "b", ascii "css", ascii "site"], .file (ascii "p\x7bx:y\x7d")),
        ([ascii "inner", ascii "site"], .link (ascii "css")),
        ([ascii "outer", ascii "site"], .link (ascii "../out"))]
    cwd := [] }

def throughInner : MergeRequest :=
  { inputPaths := [ascii "site/css/b"], outputPath := ascii "site/inner/b"
    baseDirectory := ascii "site" }

theorem walk_linkedSite :
    linkedSite.follow false (ascii "/site") = .ok ([ascii "site"], some .directory) ∧
      linkedSite.follow false (ascii "/site/inner/b") =
        .ok ([ascii "b", ascii "css", ascii "site"], some (.file (ascii "p\x7bx:y\x7d"))) := by
  have hsite : linkedSite.pass maxLinks [] (ascii "site") =
      .ok ⟨maxLinks, [ascii "site"], []⟩ := rfl
  have hinner : linkedSite.pass maxLinks [ascii "site"] (ascii "inner") =
      .ok ⟨39, [ascii "site"], [ascii "css"]⟩ := rfl
  have hcss : linkedSite.pass 39 [ascii "site"] (ascii "css") =
      .ok ⟨39, [ascii "css", ascii "site"], []⟩ := rfl
  have hb : linkedSite.pass 39 [ascii "css", ascii "site"] (ascii "b") =
      .ok ⟨39, [ascii "b", ascii "css", ascii "site"], []⟩ := rfl
  constructor
  · rw [follow_eq rfl, if_neg (by decide +kernel)]
    change linkedSite.walk false maxLinks [] [ascii "site"] = _
    rw [walk_pass hsite, List.nil_append, walk]
    rfl
  · rw [follow_eq rfl, if_neg (by decide +kernel)]
    change linkedSite.walk false maxLinks [] [ascii "site", ascii "inner", ascii "b"] = _
    rw [walk_pass hsite, List.nil_append, walk_pass hinner, List.singleton_append, walk_pass hcss,
      List.nil_append, walk_pass hb, List.nil_append, walk]
    rfl

theorem writes_confined_to_linked_site :
    linkedSite.IsTree ∧
      linkedSite.EndsInNoLink throughInner.baseDirectory throughInner.outputPath ∧
      Path.location (linkedSite.realBase throughInner.baseDirectory) = [ascii "site"] ∧
      ((merge host throughInner).run linkedSite).2.find? [ascii "b", ascii "out"] =
        linkedSite.find? [ascii "b", ascii "out"] := by
  have htree : linkedSite.IsTree := isTree_of_entries (by decide +kernel) (by decide +kernel)
  have hlink : linkedSite.EndsInNoLink throughInner.baseDirectory throughInner.outputPath := by
    intro place hplace target
    have hlocate : linkedSite.locate (Path.normalize linkedSite.cwd.path throughInner.outputPath) =
        .ok (ascii "/site/css/b") := by
      have hpath : Path.normalize linkedSite.cwd.path throughInner.outputPath =
          ascii "/site/inner/b" := by
        decide +kernel
      rw [hpath, locate, walk_linkedSite.2]
      rfl
    rw [resolve_eq (by decide), realPath_of_ok hlocate] at hplace
    split at hplace
    · have hfile : linkedSite.find? (Path.location (ascii "/site/css/b")) =
          some (.file (ascii "p\x7bx:y\x7d")) := by
        decide +kernel
      cases hplace
      rw [hfile]
      intro h
      cases h
    · cases hplace
  rcases writes_confined htree (by decide) hlink with ⟨hlocation, _, hmerge⟩
  have hsite : Path.location (linkedSite.realBase throughInner.baseDirectory) =
      [ascii "site"] := by
    have hpath : Path.normalize linkedSite.cwd.path throughInner.baseDirectory =
        ascii "/site" := by
      decide +kernel
    exact hlocation [ascii "site"] (some .directory) (by rw [hpath]; exact walk_linkedSite.1)
  refine ⟨htree, hlink, hsite, (hmerge throughInner rfl rfl _).resolve_right ?_⟩
  rw [hsite]
  decide +kernel

end Disk
end StyleTrim
