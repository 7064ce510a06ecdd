import StyleTrim.Disk.Disk

/-!
# Texts of paths

What is compared are the names of a path, but what the system is given is its text, of which it
reads no more than what stands before the first zero byte. Here the names are told from the text,
for paths in normal form and for what the system reads of them.
-/

namespace StyleTrim
namespace Path

/-!
## Names
-/

/-- A name that leads neither nowhere nor upwards. -/
structure LeadsDown (name : Bytes) : Prop where
  ne_nil : name ≠ []
  ne_dot : name ≠ dot
  ne_dotDot : name ≠ dotDot

/-- A name as it stands in a normal form. -/
structure IsName (name : Bytes) : Prop extends LeadsDown name where
  slash_not_mem : slash ∉ name

theorem isName_iff {name : Bytes} :
    IsName name ↔ (name ≠ [] ∧ name ≠ dot ∧ name ≠ dotDot) ∧ slash ∉ name :=
  ⟨fun h => ⟨⟨h.ne_nil, h.ne_dot, h.ne_dotDot⟩, h.slash_not_mem⟩,
    fun h => ⟨⟨h.1.1, h.1.2.1, h.1.2.2⟩, h.2⟩⟩

instance : DecidablePred IsName :=
  fun _ => decidable_of_iff _ isName_iff.symm

section

variable {name last : Bytes} {names : List Bytes}

theorem segments_ne_nil (s : Bytes) : segments s ≠ [] := by
  cases s with
  | nil => exact List.cons_ne_nil _ _
  | cons b s =>
      rw [segments]
      split
      · exact List.cons_ne_nil _ _
      · split <;> exact List.cons_ne_nil _ _

theorem segments_cons_of_ne {b : UInt8} (h : b ≠ slash) {s first : Bytes} {more : List Bytes}
    (hs : segments s = first :: more) : segments (b :: s) = (b :: first) :: more := by
  rw [segments, if_neg h, hs]

theorem segments_append (x y : Bytes) : segments (x ++ slash :: y) = segments x ++ segments y := by
  induction x with
  | nil => exact if_pos rfl
  | cons b x ih =>
      by_cases hslash : b = slash
      · rw [List.cons_append, segments, if_pos hslash, ih, segments, if_pos hslash,
          List.cons_append]
      · cases hx : segments x with
        | nil => exact absurd hx (segments_ne_nil x)
        | cons first more =>
            rw [hx, List.cons_append] at ih
            rw [List.cons_append, segments_cons_of_ne hslash ih, segments_cons_of_ne hslash hx,
              List.cons_append]

theorem segments_of_not_mem (h : slash ∉ name) : segments name = [name] := by
  induction name with
  | nil => rfl
  | cons b name ih =>
      rw [List.mem_cons, not_or] at h
      exact segments_cons_of_ne (Ne.symm h.1) (ih h.2)

theorem slash_not_mem_segments {s : Bytes} (h : name ∈ segments s) : slash ∉ name := by
  induction s generalizing name with
  | nil =>
      rw [List.mem_singleton.mp h]
      exact List.not_mem_nil
  | cons b s ih =>
      by_cases hslash : b = slash
      · rw [segments, if_pos hslash, List.mem_cons] at h
        rcases h with rfl | h
        · exact List.not_mem_nil
        · exact ih h
      · cases hs : segments s with
        | nil => exact absurd hs (segments_ne_nil s)
        | cons first more =>
            rw [hs] at ih
            rw [segments_cons_of_ne hslash hs, List.mem_cons] at h
            rcases h with rfl | h
            · rw [List.mem_cons, not_or]
              exact ⟨Ne.symm hslash, ih List.mem_cons_self⟩
            · exact ih (List.mem_cons_of_mem _ h)

theorem joinNames_cons (hne : names ≠ []) (name : Bytes) :
    joinNames (name :: names) = name ++ slash :: joinNames names := by
  cases names with
  | nil => exact absurd rfl hne
  | cons => rfl

theorem joinNames_concat (hne : names ≠ []) (last : Bytes) :
    joinNames (names ++ [last]) = joinNames names ++ slash :: last := by
  induction names with
  | nil => exact absurd rfl hne
  | cons first names ih =>
      cases names with
      | nil => rfl
      | cons next names =>
          have hnext : next :: names ≠ [] := List.cons_ne_nil _ _
          rw [List.cons_append, joinNames_cons (List.append_ne_nil_of_left_ne_nil hnext _),
            ih hnext, joinNames_cons hnext, List.append_assoc, List.cons_append]

theorem joinNames_prefix {front names : List Bytes} (h : front <+: names) :
    joinNames front <+: joinNames names := by
  induction front generalizing names with
  | nil => exact List.nil_prefix
  | cons name front ih =>
      rcases h with ⟨more, rfl⟩
      cases front with
      | nil =>
          cases more with
          | nil => exact List.prefix_refl _
          | cons => exact List.prefix_append _ _
      | cons next front =>
          have hrest := ih (List.prefix_append (next :: front) more)
          change name ++ slash :: joinNames (next :: front) <+:
            name ++ slash :: joinNames (next :: front ++ more)
          rw [List.prefix_append_right_inj]
          exact List.cons_prefix_cons.mpr ⟨rfl, hrest⟩

theorem segments_joinNames (hne : names ≠ []) (h : ∀ name ∈ names, slash ∉ name) :
    segments (joinNames names) = names := by
  induction names with
  | nil => exact absurd rfl hne
  | cons first names ih =>
      rcases List.forall_mem_cons.mp h with ⟨hfirst, hnames⟩
      cases names with
      | nil => exact segments_of_not_mem hfirst
      | cons next names =>
          rw [joinNames_cons (List.cons_ne_nil _ _), segments_append, segments_of_not_mem hfirst,
            ih (List.cons_ne_nil _ _) hnames, List.singleton_append]

end

/-!
## Zero bytes
-/

/-- What the system reads of a text. -/
def cut (s : Bytes) : Bytes :=
  s.takeWhile (· != 0)

def cutNames : List Bytes -> List Bytes
  | [] => []
  | name :: names => if 0 ∈ name then [cut name] else name :: cutNames names

theorem cut_cons {b : UInt8} (h : b ≠ 0) (s : Bytes) : cut (b :: s) = b :: cut s :=
  List.takeWhile_cons_of_pos (by simpa using h)

theorem cut_zero (s : Bytes) : cut (0 :: s) = [] :=
  List.takeWhile_cons_of_neg (by simp)

theorem cut_prefix {front s : Bytes} (h : front <+: s) : cut front <+: cut s := by
  induction front generalizing s with
  | nil => exact List.nil_prefix
  | cons b front ih =>
      rcases h with ⟨more, rfl⟩
      by_cases hzero : b = 0
      · rw [hzero, cut_zero]
        exact List.nil_prefix
      · rw [List.cons_append, cut_cons hzero, cut_cons hzero]
        exact List.cons_prefix_cons.mpr ⟨rfl, ih (List.prefix_append front more)⟩

theorem cutNames_cons_of_not_mem {name : Bytes} (h : 0 ∉ name) (names : List Bytes) :
    cutNames (name :: names) = name :: cutNames names := by
  rw [cutNames, if_neg h]

theorem cutNames_cons_of_mem {name : Bytes} (h : 0 ∈ name) (names : List Bytes) :
    cutNames (name :: names) = [cut name] := by
  rw [cutNames, if_pos h]

theorem cutNames_cons (name : Bytes) (names : List Bytes) :
    ∃ first rest, cutNames [name] = [first] ∧ cutNames (name :: names) = first :: rest := by
  by_cases h : 0 ∈ name
  · exact ⟨cut name, [], cutNames_cons_of_mem h [], cutNames_cons_of_mem h names⟩
  · exact ⟨name, cutNames names, cutNames_cons_of_not_mem h [], cutNames_cons_of_not_mem h names⟩

theorem segments_cut (s : Bytes) : segments (cut s) = cutNames (segments s) := by
  induction s with
  | nil => rfl
  | cons b s ih =>
      by_cases hslash : b = slash
      · have hb : b ≠ 0 := by
          rw [hslash]
          decide
        rw [cut_cons hb, segments, if_pos hslash, ih, segments, if_pos hslash,
          cutNames_cons_of_not_mem List.not_mem_nil]
      · cases hs : segments s with
        | nil => exact absurd hs (segments_ne_nil s)
        | cons first more =>
            rw [hs] at ih
            rw [segments_cons_of_ne hslash hs]
            by_cases hzero : b = 0
            · rw [hzero, cut_zero, cutNames_cons_of_mem List.mem_cons_self, cut_zero]
              rfl
            · rw [cut_cons hzero]
              by_cases hfirst : 0 ∈ first
              · rw [cutNames_cons_of_mem hfirst] at ih
                rw [cutNames_cons_of_mem (List.mem_cons_of_mem _ hfirst),
                  segments_cons_of_ne hslash ih, cut_cons hzero]
              · have hnot : 0 ∉ b :: first := by
                  rw [List.mem_cons, not_or]
                  exact ⟨Ne.symm hzero, hfirst⟩
                rw [cutNames_cons_of_not_mem hfirst] at ih
                rw [cutNames_cons_of_not_mem hnot, segments_cons_of_ne hslash ih]

theorem cutNames_append {front : List Bytes} (h : ∀ name ∈ front, 0 ∉ name) (back : List Bytes) :
    cutNames (front ++ back) = front ++ cutNames back := by
  induction front with
  | nil => rfl
  | cons name front ih =>
      rcases List.forall_mem_cons.mp h with ⟨hname, hfront⟩
      rw [List.cons_append, cutNames_cons_of_not_mem hname, ih hfront, List.cons_append]

theorem cutNames_eq_self {names : List Bytes} (h : ∀ name ∈ names, 0 ∉ name) :
    cutNames names = names := by
  have hcut := cutNames_append h []
  rw [cutNames, List.append_nil] at hcut
  exact hcut

theorem cutNames_slashes {names : List Bytes} (h : ∀ name ∈ names, name = []) :
    cutNames names = names := by
  apply cutNames_eq_self
  intro name hmem
  rw [h name hmem]
  exact List.not_mem_nil

theorem cutNames_append_of_mem {front : List Bytes} (h : ∃ name ∈ front, 0 ∈ name)
    (back : List Bytes) : cutNames (front ++ back) = cutNames front := by
  induction front with
  | nil => simp at h
  | cons name front ih =>
      by_cases hzero : 0 ∈ name
      · rw [List.cons_append, cutNames_cons_of_mem hzero, cutNames_cons_of_mem hzero]
      · have hfront : ∃ name ∈ front, 0 ∈ name := by simpa [hzero] using h
        rw [List.cons_append, cutNames_cons_of_not_mem hzero, cutNames_cons_of_not_mem hzero,
          ih hfront]

theorem cutNames_prefix {a b : List Bytes} (h : a <+: b) : cutNames a <+: cutNames b := by
  induction a generalizing b with
  | nil => exact List.nil_prefix
  | cons name a ih =>
      rcases h with ⟨more, rfl⟩
      by_cases hzero : 0 ∈ name
      · have hsame : cutNames (name :: a) = cutNames (name :: a ++ more) := by
          rw [List.cons_append, cutNames_cons_of_mem hzero, cutNames_cons_of_mem hzero]
        exact hsame ▸ List.prefix_refl _
      · rw [List.cons_append, cutNames_cons_of_not_mem hzero, cutNames_cons_of_not_mem hzero]
        exact List.cons_prefix_cons.mpr ⟨rfl, ih (List.prefix_append a more)⟩

/-!
## Normal forms
-/

def spell (names : List Bytes) (last : Bytes) : Bytes :=
  slash :: joinNames (names ++ [last])

structure IsNormal (names : List Bytes) (last : Bytes) : Prop where
  names : ∀ name ∈ names, IsName name
  last : last = [] ∨ IsName last

section

variable {names : List Bytes} {last : Bytes}

theorem IsNormal.front {front behind more : List Bytes} {next : Bytes}
    (h : IsNormal (front ++ behind) last) (hrest : behind ++ [last] = next :: more) :
    IsNormal front next := by
  rcases List.forall_mem_append.mp h.names with ⟨hfront, hbehind⟩
  refine ⟨hfront, ?_⟩
  cases behind with
  | nil =>
      cases hrest
      exact h.last
  | cons first behind =>
      cases hrest
      exact Or.inr (hbehind _ List.mem_cons_self)

theorem IsNormal.slash_not_mem (h : IsNormal names last) :
    ∀ name ∈ names ++ [last], slash ∉ name := by
  intro name hname
  rcases List.mem_append.mp hname with hmem | hmem
  · exact (h.names name hmem).slash_not_mem
  · rw [List.mem_singleton.mp hmem]
    rcases h.last with hnil | hlast
    · rw [hnil]
      exact List.not_mem_nil
    · exact hlast.slash_not_mem

theorem segments_spell (h : IsNormal names last) :
    segments (spell names last) = [] :: (names ++ [last]) := by
  have hne : names ++ [last] ≠ [] := List.concat_ne_nil _ _
  rw [spell, segments, if_pos rfl, segments_joinNames hne h.slash_not_mem]

theorem step_of_leadsDown {name : Bytes} (h : LeadsDown name) (n : Normal) :
    n.step name = { names := name :: n.names, trailing := false } := by
  rw [Normal.step, if_neg (not_or.mpr ⟨h.ne_nil, h.ne_dot⟩), if_neg h.ne_dotDot]

theorem foldl_step (h : ∀ name ∈ names, LeadsDown name) (n : Normal) :
    (names.foldl Normal.step n).names = names.reverse ++ n.names := by
  induction names generalizing n with
  | nil => rfl
  | cons name names ih =>
      rcases List.forall_mem_cons.mp h with ⟨hname, hnames⟩
      rw [List.foldl_cons, step_of_leadsDown hname, ih hnames, List.reverse_cons, List.append_assoc]
      rfl

theorem isName_of_foldl_step {segments : List Bytes} (h : ∀ s ∈ segments, slash ∉ s) {n : Normal}
    (hn : ∀ name ∈ n.names, IsName name) :
    ∀ name ∈ (segments.foldl Normal.step n).names, IsName name := by
  induction segments generalizing n with
  | nil => exact hn
  | cons s segments ih =>
      rcases List.forall_mem_cons.mp h with ⟨hs, hsegments⟩
      apply ih hsegments
      unfold Normal.step
      split
      · exact hn
      · rename_i hstay
        rw [not_or] at hstay
        split
        · exact fun name hmem => hn name (List.mem_of_mem_tail hmem)
        · rename_i hup
          exact List.forall_mem_cons.mpr ⟨⟨⟨hstay.1, hstay.2, hup⟩, hs⟩, hn⟩

theorem spell_slash (hne : names ≠ []) : spell names [] = slash :: joinNames names ++ [slash] := by
  rw [spell, joinNames_concat hne, List.cons_append]

theorem exists_spell_render {n : Normal} (h : ∀ name ∈ n.names, IsName name) :
    ∃ names last, IsNormal names last ∧ n.render = spell names last := by
  rcases n with ⟨names, trailing⟩
  cases names with
  | nil => exact ⟨[], [], ⟨List.forall_mem_nil _, Or.inl rfl⟩, by cases trailing <;> rfl⟩
  | cons last names =>
      rcases List.forall_mem_cons.mp h with ⟨hlast, hnames⟩
      have hreverse : ∀ name ∈ (last :: names).reverse, IsName name :=
        fun name hmem => h name (List.mem_reverse.mp hmem)
      cases trailing with
      | false =>
          refine ⟨names.reverse, last,
            ⟨fun name hmem => hnames name (List.mem_reverse.mp hmem), Or.inr hlast⟩, ?_⟩
          rw [spell, ← List.reverse_cons]
          exact List.append_nil _
      | true =>
          refine ⟨(last :: names).reverse, [], ⟨hreverse, Or.inl rfl⟩, ?_⟩
          rw [spell_slash (by simp)]
          rfl

theorem exists_spell_normalForm {path : Bytes} (hne : path ≠ []) (hroot : isRoot path = false) :
    ∃ names last, IsNormal names last ∧ normalForm path = spell names last := by
  have hempty : path.isEmpty = false := by
    rw [List.isEmpty_eq_false_iff]
    exact hne
  rw [normalForm, hempty, hroot]
  apply exists_spell_render
  exact isName_of_foldl_step (fun s => slash_not_mem_segments) (List.forall_mem_nil _)

theorem normalForm_spell (h : IsNormal names last) :
    normalForm (spell names last) = spell names last := by
  unfold normalForm
  split
  · rfl
  · have hnames := foldl_step (fun name hmem => (h.names name hmem).toLeadsDown)
      (Normal.step {} [])
    rw [segments_spell h, List.foldl_cons, List.foldl_append, List.foldl_cons, List.foldl_nil]
    generalize names.foldl Normal.step (Normal.step {} []) = n at hnames
    change n.names = names.reverse ++ [] at hnames
    rw [List.append_nil] at hnames
    rcases h.last with hlast | hlast
    · rw [hlast, Normal.step, if_pos (Or.inl rfl), Normal.render, hnames, List.reverse_reverse]
      cases names with
      | nil => rfl
      | cons name names =>
          rw [spell_slash (List.cons_ne_nil _ _), if_pos (by simp)]
    · rw [step_of_leadsDown hlast.toLeadsDown, Normal.render, hnames, List.reverse_cons,
        List.reverse_reverse]
      exact List.append_nil _

/-!
## Joining
-/

theorem getLast?_spell (h : IsName last) (names : List Bytes) :
    (spell names last).getLast? ≠ some slash := by
  have hend : ∃ front, spell names last = front ++ last := by
    cases names with
    | nil => exact ⟨[slash], rfl⟩
    | cons name names =>
        refine ⟨slash :: joinNames (name :: names) ++ [slash], ?_⟩
        rw [spell, joinNames_concat (List.cons_ne_nil _ _), List.append_assoc]
        rfl
  rcases hend with ⟨front, hspell⟩
  rw [hspell, List.getLast?_append, List.getLast?_eq_some_getLast h.ne_nil, Option.some_or]
  intro hlast
  have hmem := List.getLast_mem h.ne_nil
  rw [Option.some.inj hlast] at hmem
  exact h.slash_not_mem hmem

theorem join_spell (h : IsName last) (names : List Bytes) (more : Bytes) :
    join (spell names last) more = spell (names ++ [last]) more := by
  have hslash : ((spell names last).getLast? == some slash) = false :=
    beq_eq_false_iff_ne.mpr (getLast?_spell h names)
  rw [join, hslash, spell, spell, joinNames_concat (List.concat_ne_nil _ _)]
  rfl

theorem foldl_join_spell (h : IsName last) (names : List Bytes) {front : List Bytes}
    (hfront : ∀ name ∈ front, IsName name) (more : Bytes) :
    (front ++ [more]).foldl join (spell names last) = spell (names ++ last :: front) more := by
  induction front generalizing names last with
  | nil => exact join_spell h names more
  | cons name front ih =>
      rcases List.forall_mem_cons.mp hfront with ⟨hname, hfront⟩
      rw [List.cons_append, List.foldl_cons, join_spell h, ih hname _ hfront, List.append_assoc]
      rfl

theorem foldl_join_root {front : List Bytes} (hfront : ∀ name ∈ front, IsName name)
    (more : Bytes) : (front ++ [more]).foldl join [slash] = spell front more := by
  cases front with
  | nil => rfl
  | cons name front =>
      rcases List.forall_mem_cons.mp hfront with ⟨hname, hfront⟩
      exact foldl_join_spell hname [] hfront more

theorem spell_prefix {front : List Bytes} {first : Bytes}
    (h : front ++ [first] <+: names ++ [last]) :
    spell front first <+: spell names last :=
  List.cons_prefix_cons.mpr ⟨rfl, joinNames_prefix h⟩

theorem isAbsolute_join {path : Bytes} (h : isAbsolute path = true) (more : Bytes) :
    isAbsolute (join path more) = true := by
  cases path with
  | nil => cases h
  | cons b path =>
      unfold join
      split <;> exact h

theorem isAbsolute_foldl_join {path : Bytes} (h : isAbsolute path = true) (names : List Bytes) :
    isAbsolute (names.foldl join path) = true := by
  induction names generalizing path with
  | nil => exact h
  | cons name names ih => exact ih (isAbsolute_join h name)

theorem isAbsolute_normalForm {path : Bytes} (h : isAbsolute path = true) :
    isAbsolute (normalForm path) = true := by
  unfold normalForm
  split
  · exact h
  · rfl

theorem isAbsolute_normalize {cwd path : Bytes} (hcwd : isAbsolute cwd = true) (hne : path ≠ []) :
    isAbsolute (normalize cwd path) = true := by
  apply isAbsolute_normalForm
  unfold absolute
  split
  · rename_i h
    rw [Bool.or_eq_true, List.isEmpty_iff] at h
    exact h.resolve_left hne
  · exact isAbsolute_join hcwd path

/-!
## Elements
-/

theorem segments_of_isRoot {path : Bytes} (h : path.all (· == slash) = true) :
    ∀ s ∈ segments path, s = [] := by
  induction path with
  | nil =>
      intro s hs
      exact List.mem_singleton.mp hs
  | cons b path ih =>
      rw [List.all_cons, Bool.and_eq_true] at h
      rw [segments, if_pos (by simpa using h.1)]
      exact List.forall_mem_cons.mpr ⟨rfl, ih h.2⟩

theorem segments_of_isAbsolute {path : Bytes} (h : isAbsolute path = true) :
    segments path = [] :: (segments path).tail := by
  cases path with
  | nil => cases h
  | cons b path =>
      have hslash : b = slash := by simpa [isAbsolute] using h
      rw [segments, if_pos hslash, List.tail_cons]

theorem elements_of_isName {path name : Bytes} (hmem : name ∈ segments path) (hname : name ≠ []) :
    elements path = [slash] :: (segments path).tail := by
  have hempty : path.isEmpty = false := by
    rw [List.isEmpty_eq_false_iff]
    rintro rfl
    exact hname (List.mem_singleton.mp hmem)
  have hroot : isRoot path = false := by
    rw [isRoot, hempty, Bool.not_false, Bool.true_and, Bool.eq_false_iff]
    intro hall
    exact hname (segments_of_isRoot hall name hmem)
  rw [elements, hempty, hroot]
  rfl

theorem prefix_of_isWithin {base : List Bytes} (h : isWithin names base = true) :
    base <+: names ∨ ∃ front, base = front ++ [[]] ∧ front <+: names := by
  fun_induction isWithin names base with
  | case1 => exact Or.inl List.nil_prefix
  | case2 names => exact Or.inr ⟨[], rfl, List.nil_prefix⟩
  | case3 => cases h
  | case4 names name other base _ ih =>
      rw [Bool.and_eq_true, beq_iff_eq] at h
      rcases h with ⟨rfl, h⟩
      rcases ih h with hprefix | ⟨front, rfl, hprefix⟩
      · exact Or.inl (List.cons_prefix_cons.mpr ⟨rfl, hprefix⟩)
      · exact Or.inr ⟨_ :: front, rfl, List.cons_prefix_cons.mpr ⟨rfl, hprefix⟩⟩

end

/-!
## Locations
-/

/-- The location that an absolute path names by its text, so far as the system reads it. -/
def location (path : Bytes) : Location :=
  ((segments (cut path)).foldl Normal.step {}).names

section

variable {path base : Bytes} {names : List Bytes}

theorem foldl_step_nil (h : ∀ s ∈ names, s = []) (n : Normal) :
    (names.foldl Normal.step n).names = n.names := by
  induction names generalizing n with
  | nil => rfl
  | cons s names ih =>
      rcases List.forall_mem_cons.mp h with ⟨rfl, hnames⟩
      exact ih hnames _

theorem location_eq (h : isAbsolute path = true) :
    location path =
      ((cutNames (segments path).tail).foldl Normal.step { trailing := true }).names := by
  rw [location, segments_cut, segments_of_isAbsolute h,
    cutNames_cons_of_not_mem List.not_mem_nil, List.foldl_cons]
  rfl

theorem location_of_cutNames (h : isAbsolute path = true)
    (hnames : ∀ name ∈ cutNames (segments path).tail, LeadsDown name) :
    location path = (cutNames (segments path).tail).reverse := by
  rw [location_eq h, foldl_step hnames, List.append_nil]

theorem location_of_isRoot (h : isRoot path = true) : location path = [] := by
  rw [isRoot, Bool.and_eq_true] at h
  have hnames := segments_of_isRoot h.2
  rw [location, segments_cut, cutNames_slashes hnames, foldl_step_nil hnames]

theorem foldl_step_cutNames_slash (front : List Bytes) (n : Normal) :
    ((cutNames (front ++ [[]])).foldl Normal.step n).names =
      ((cutNames front).foldl Normal.step n).names := by
  induction front generalizing n with
  | nil => rfl
  | cons name front ih =>
      by_cases hzero : 0 ∈ name
      · rw [List.cons_append, cutNames_cons_of_mem hzero, cutNames_cons_of_mem hzero]
      · rw [List.cons_append, cutNames_cons_of_not_mem hzero, cutNames_cons_of_not_mem hzero]
        exact ih _

theorem location_suffix (hpath : elements path = [slash] :: names)
    (hnames : ∀ name ∈ cutNames names, LeadsDown name) (habsolute : isAbsolute base = true)
    (hwithin : isWithin (elements path) (elements base) = true) :
    location base <:+ (cutNames names).reverse := by
  -- The names of a path that is above lead to a place above.
  have habove : ∀ front, front <+: names ->
      ((cutNames front).foldl Normal.step { trailing := true }).names <:+
        (cutNames names).reverse := by
    intro front hprefix
    have hcut := cutNames_prefix hprefix
    rw [foldl_step fun name hmem => hnames name (hcut.subset hmem), List.append_nil]
    exact List.reverse_suffix.mpr hcut
  cases hroot : isRoot base with
  | true =>
      rw [location_of_isRoot hroot]
      exact List.nil_suffix
  | false =>
      have hempty : base.isEmpty = false := by
        cases base with
        | nil => cases habsolute
        | cons => rfl
      have hbase : elements base = [slash] :: (segments base).tail := by
        rw [elements, hempty, hroot]
        rfl
      have hbelow : isWithin names (segments base).tail = true := by
        rw [hpath, hbase] at hwithin
        unfold isWithin at hwithin
        rw [Bool.and_eq_true] at hwithin
        exact hwithin.2
      rw [location_eq habsolute]
      rcases prefix_of_isWithin hbelow with hprefix | ⟨front, hfront, hprefix⟩
      · exact habove _ hprefix
      · rw [hfront, foldl_step_cutNames_slash]
        exact habove _ hprefix

end

end Path
end StyleTrim
