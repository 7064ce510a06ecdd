import StyleTrim.Sanitize.Pattern

/-!
# Where dangerous constructs can be

A construct is told by its own bytes: whatever follows, it is found again. Inside of one, none
begins. So two of them never overlap, and no two patterns find something at the same place.
-/

namespace StyleTrim

namespace Byte

theorem toLower_toLower (b : UInt8) : toLower (toLower b) = toLower b := by
  unfold toLower
  by_cases h : isUpper b = true
  · have hlow : isUpper (b + 0x20) = false := by
      rw [Bool.eq_false_iff]
      intro hup
      simp only [isUpper, Bool.and_eq_true, decide_eq_true_eq, UInt8.le_iff_toNat_le] at h hup
      have hadd : (b + 0x20).toNat = (b.toNat + 0x20) % 256 := UInt8.toNat_add b 0x20
      simp at h hup
      omega
    rw [if_pos h, if_neg (by simp [hlow])]
  · rw [if_neg h, if_neg h]

theorem isBlank_cases {b : UInt8} (h : isBlank b = true) :
    b = 0x20 ∨ b = 0x09 ∨ b = 0x0A ∨ b = 0x0B ∨ b = 0x0C ∨ b = 0x0D := by
  simp only [isBlank, Bool.or_eq_true, Bool.and_eq_true, beq_iff_eq, decide_eq_true_eq,
    UInt8.le_iff_toNat_le, ← UInt8.toNat_inj] at h ⊢
  simp at h ⊢
  omega

end Byte

theorem lower_take_of_dropWord? {w s rest : Bytes} (h : dropWord? w s = some rest) :
    lower (s.take w.length) = w := by
  induction w generalizing s with
  | nil => rfl
  | cons c w ih =>
      cases s with
      | nil => cases h
      | cons b s =>
          rw [dropWord?] at h
          split at h
          · rename_i hb
            change Byte.toLower b :: lower (s.take w.length) = _
            rw [hb, ih h]
          · cases h

theorem dropWord?_append {f w : Bytes} (h : lower f = w) (x : Bytes) :
    dropWord? w (f ++ x) = some x := by
  subst h
  induction f with
  | nil => cases x <;> rfl
  | cons b f ih =>
      change dropWord? (Byte.toLower b :: lower f) (b :: (f ++ x)) = _
      rw [dropWord?, if_pos rfl, ih]

namespace Pattern

/-!
## Texts at which nothing begins
-/

def differs : Bytes -> Bytes -> Bool
  | w :: ws, b :: t => Byte.toLower b != w || differs ws t
  | _, _ => false

theorem dropWord?_of_differs {w t : Bytes} (h : differs w t = true) (x : Bytes) :
    dropWord? w (t ++ x) = none := by
  induction w generalizing t with
  | nil => cases h
  | cons c w ih =>
      cases t with
      | nil => cases h
      | cons b t =>
          rw [List.cons_append, dropWord?]
          split
          · rename_i hb
            simp only [differs, hb, bne_self_eq_false, Bool.false_or] at h
            exact ih h
          · rfl

theorem differs_lower (w t : Bytes) : differs w (lower t) = differs w t := by
  induction w generalizing t with
  | nil => rfl
  | cons c w ih =>
      cases t with
      | nil => rfl
      | cons b t =>
          change (Byte.toLower (Byte.toLower b) != c || differs w (lower t)) = _
          rw [Byte.toLower_toLower, ih]
          rfl

def quiet (t : Bytes) : Bool :=
  dangerous.all fun p => differs p.opening t

theorem quiet_lower (t : Bytes) : quiet (lower t) = quiet t := by
  simp only [quiet, differs_lower]

def Silent (t : Bytes) : Prop :=
  ∀ before x, matchAt? before (t ++ x) = none

theorem take?_of_differs {p : Pattern} {t : Bytes} (h : differs p.opening t = true)
    (before : Option UInt8) (x : Bytes) : p.take? before (t ++ x) = none := by
  unfold take?
  split
  · rfl
  · simp [takeParts?, Part.take?, dropWord?_of_differs h x]

theorem silent_of_quiet {t : Bytes} (h : quiet t = true) : Silent t := by
  intro before x
  apply List.findSome?_eq_none_iff.mpr
  intro p hp
  exact take?_of_differs (List.all_eq_true.mp h p hp) before x

theorem Silent.append {t : Bytes} (h : Silent t) (y : Bytes) : Silent (t ++ y) := by
  intro before x
  rw [List.append_assoc]
  exact h before (y ++ x)

def SilentInside (t : Bytes) : Prop :=
  ∀ a b, t = a ++ b -> b ≠ [] -> Silent b

theorem SilentInside.nil : SilentInside [] := by
  intro a b h hb
  exact absurd (List.append_eq_nil_iff.mp h.symm).2 hb

theorem SilentInside.append {t u : Bytes} (ht : SilentInside t) (hu : SilentInside u) :
    SilentInside (t ++ u) := by
  intro a b h hb
  rcases List.append_eq_append_iff.mp h with ⟨c, rfl, rfl⟩ | ⟨c, rfl, rfl⟩
  · exact hu c b rfl hb
  · by_cases hc : c = []
    · subst hc
      exact hu [] u rfl (by simpa using hb)
    · exact (ht a c rfl hc).append u

def quietTails : Bytes -> Bool
  | [] => true
  | b :: t => quiet (b :: t) && quietTails t

theorem silentInside_of_quietTails {w f : Bytes} (hlower : lower f = w)
    (h : quietTails w = true) : SilentInside f := by
  subst hlower
  induction f with
  | nil => exact SilentInside.nil
  | cons b f ih =>
      change (quiet (lower (b :: f)) && quietTails (lower f)) = true at h
      rw [Bool.and_eq_true, quiet_lower] at h
      intro x y hxy hy
      cases x with
      | nil =>
          obtain rfl : b :: f = y := hxy
          exact silent_of_quiet h.1
      | cons c x =>
          obtain ⟨_, rfl⟩ := List.cons.inj hxy
          exact ih h.2 x y rfl hy

theorem silentInside_of_all {p : UInt8 -> Bool} {f : Bytes} (hall : f.all p = true)
    (hquiet : ∀ b, p b = true -> quiet [b] = true) : SilentInside f := by
  intro x y hxy hy
  obtain ⟨b, t, rfl⟩ := List.exists_cons_of_ne_nil hy
  have hb : p b = true := List.all_eq_true.mp hall b (by simp [hxy])
  exact (silent_of_quiet (hquiet b hb)).append t

theorem quiet_of_isBlank {b : UInt8} (h : Byte.isBlank b = true) : quiet [b] = true := by
  rcases Byte.isBlank_cases h with rfl | rfl | rfl | rfl | rfl | rfl <;> decide

theorem quiet_of_isQuote {b : UInt8} (h : Byte.isQuote b = true) : quiet [b] = true := by
  have hcases : b = 0x22 ∨ b = 0x27 := by simpa [Byte.isQuote] using h
  rcases hcases with rfl | rfl <;> decide

/-!
## Inside of a construct
-/

def Part.quietTails : Part -> Bool
  | .word w => Pattern.quietTails w
  | _ => true

theorem Part.silentInside {part : Part} {s found rest : Bytes} (hquiet : part.quietTails = true)
    (h : part.take? s = some (found, rest)) : SilentInside found := by
  cases part with
  | word w =>
      obtain ⟨after, hdrop, heq⟩ := Option.map_eq_some_iff.mp h
      cases heq
      exact silentInside_of_quietTails (lower_take_of_dropWord? hdrop) hquiet
  | blank =>
      unfold Part.take? at h
      dsimp only at h
      split at h
      · cases h
      · split at h
        · rename_i b rest' hb
          cases h
          exact silentInside_of_all (p := Byte.isBlank) (by simp [hb]) fun _ => quiet_of_isBlank
        · cases h
  | blanks =>
      cases h
      exact silentInside_of_all (p := Byte.isBlank) List.all_takeWhile fun _ => quiet_of_isBlank
  | quote =>
      unfold Part.take? at h
      dsimp only at h
      split at h
      · cases h
        exact SilentInside.nil
      · split at h
        · rename_i b rest' hb
          cases h
          exact silentInside_of_all (p := Byte.isQuote) (by simp [hb]) fun _ => quiet_of_isQuote
        · cases h
          exact SilentInside.nil

theorem silentInside_of_takeParts? {parts : List Part} {s found rest : Bytes}
    (hquiet : parts.all Part.quietTails = true) (h : takeParts? parts s = some (found, rest)) :
    SilentInside found := by
  induction parts generalizing s found rest with
  | nil =>
      cases h
      exact SilentInside.nil
  | cons part parts ih =>
      rw [List.all_cons, Bool.and_eq_true] at hquiet
      obtain ⟨first, after, more, hfirst, hmore, rfl⟩ := takeParts?_cons h
      exact (Part.silentInside hquiet.1 hfirst).append (ih hquiet.2 hmore)

theorem take?_eq_some {p : Pattern} {before : Option UInt8} {s : Bytes} {x : Bytes × Bytes} :
    p.take? before s = some x ↔
      (p.wholeWord && before.any isWordByte) = false ∧
        takeParts? (.word p.opening :: p.parts) s = some x := by
  unfold take?
  split
  · rename_i h
    simp [h]
  · rename_i h
    simp [h]

theorem take?_cases {p : Pattern} {before : Option UInt8} {s found rest : Bytes}
    (h : p.take? before s = some (found, rest)) :
    ∃ first more, found = first ++ more ∧ lower first = p.opening ∧
      takeParts? p.parts (more ++ rest) = some (more, rest) := by
  obtain ⟨first, after, more, hfirst, hmore, rfl⟩ := takeParts?_cons (take?_eq_some.mp h).2
  obtain ⟨tail, hdrop, heq⟩ := Option.map_eq_some_iff.mp hfirst
  cases heq
  refine ⟨s.take p.opening.length, more, rfl, lower_take_of_dropWord? hdrop, ?_⟩
  rw [takeParts?_append hmore]
  exact hmore

theorem quietTails_dangerous :
    ∀ p ∈ dangerous, quietTails p.opening.tail = true ∧
      p.parts.all Part.quietTails = true := by
  decide +kernel

theorem silent_behind_front {before : Option UInt8} {s found rest a b : Bytes}
    (h : matchAt? before s = some (found, rest)) (hab : found = a ++ b) (ha : a ≠ [])
    (hb : b ≠ []) : Silent b := by
  obtain ⟨p, hmem, hp⟩ := List.exists_of_findSome?_eq_some h
  obtain ⟨first, more, rfl, hfirst, hmore⟩ := take?_cases hp
  obtain ⟨hopening, hparts⟩ := quietTails_dangerous p hmem
  obtain ⟨c, a, rfl⟩ := List.exists_cons_of_ne_nil ha
  cases first with
  | nil => exact absurd hfirst.symm (opening_ne_nil p hmem)
  | cons d first =>
      obtain ⟨_, htail⟩ := List.cons.inj hab
      rw [← hfirst] at hopening
      have hinside := (silentInside_of_quietTails rfl hopening).append
        (silentInside_of_takeParts? hparts hmore)
      exact hinside a b htail hb

/-!
## A construct is told by its own bytes

The last part of every pattern is a word, so how far the blanks before it reach is told by bytes
that are part of the construct.
-/

def endsInWord : List Part -> Bool
  | [] => false
  | [.word w] => !w.isEmpty
  | _ :: parts => endsInWord parts

theorem endsInWord_dangerous : ∀ p ∈ dangerous, endsInWord p.parts = true := by
  decide

theorem endsInWord_cons {part : Part} {parts : List Part}
    (h : endsInWord (part :: parts) = true) :
    (parts = [] ∧ ∃ w, part = .word w ∧ w ≠ []) ∨ endsInWord parts = true := by
  unfold endsInWord at h
  split at h
  · cases h
  · rename_i w heq
    obtain ⟨rfl, rfl⟩ := List.cons.inj heq
    exact Or.inl ⟨rfl, w, rfl, by simpa using h⟩
  · rename_i heq
    obtain ⟨rfl, rfl⟩ := List.cons.inj heq
    exact Or.inr h

theorem takeParts?_ne_nil {parts : List Part} {s found rest : Bytes}
    (hend : endsInWord parts = true) (h : takeParts? parts s = some (found, rest)) :
    found ≠ [] := by
  induction parts generalizing s found rest with
  | nil => cases hend
  | cons part parts ih =>
      obtain ⟨first, after, more, hfirst, hmore, rfl⟩ := takeParts?_cons h
      rcases endsInWord_cons hend with ⟨_, w, rfl, hw⟩ | hend
      · obtain ⟨tail, hdrop, heq⟩ := Option.map_eq_some_iff.mp hfirst
        cases heq
        have hlen := congrArg List.length (lower_take_of_dropWord? hdrop)
        rw [length_lower] at hlen
        intro hnil
        obtain ⟨hfirst, _⟩ := List.append_eq_nil_iff.mp hnil
        rw [hfirst] at hlen
        exact hw (List.eq_nil_of_length_eq_zero hlen.symm)
      · intro hnil
        exact ih hend hmore (List.append_eq_nil_iff.mp hnil).2

theorem Part.take?_again {part : Part} {s found rest rest' : Bytes}
    (h : part.take? s = some (found, rest))
    (hsame : rest'.head? = rest.head? ∨ ∃ w, part = .word w) :
    part.take? (found ++ rest') = some (found, rest') := by
  cases part with
  | word w =>
      obtain ⟨tail, hdrop, heq⟩ := Option.map_eq_some_iff.mp h
      cases heq
      have hlower := lower_take_of_dropWord? hdrop
      have hlen := congrArg List.length hlower
      rw [length_lower] at hlen
      generalize s.take w.length = f at hlower hlen ⊢
      simp only [Part.take?, dropWord?_append hlower rest', Option.map_some, ← hlen,
        List.take_left]
  | blank =>
      unfold Part.take? at h
      dsimp only at h
      split at h
      · cases h
      · split at h
        · rename_i b tail hb
          cases h
          simp [Part.take?, hb]
        · cases h
  | blanks =>
      have hhead := hsame.resolve_right nofun
      cases h
      have hall : ∀ b ∈ s.takeWhile Byte.isBlank, Byte.isBlank b = true :=
        List.all_eq_true.mp List.all_takeWhile
      have hstop := List.head?_dropWhile_not Byte.isBlank s
      rw [← hhead] at hstop
      simp only [Part.take?, List.takeWhile_append_of_pos hall, List.dropWhile_append_of_pos hall]
      cases rest' with
      | nil => simp
      | cons b rest' =>
          have hb : Byte.isBlank b = false := by simpa using hstop
          simp [hb]
  | quote =>
      have hhead := hsame.resolve_right nofun
      unfold Part.take? at h ⊢
      dsimp only at h ⊢
      split at h
      · cases h
        cases rest' with
        | nil => rfl
        | cons b rest' => cases hhead
      · split at h
        · rename_i b tail hb
          cases h
          simp [hb]
        · rename_i b tail hb
          cases h
          cases rest' with
          | nil => cases hhead
          | cons c rest' =>
              obtain rfl : c = b := by simpa using hhead
              simp [hb]

theorem takeParts?_again {parts : List Part} {s found rest : Bytes}
    (hend : endsInWord parts = true) (h : takeParts? parts s = some (found, rest)) (x : Bytes) :
    takeParts? parts (found ++ x) = some (found, x) := by
  induction parts generalizing s found rest with
  | nil => cases hend
  | cons part parts ih =>
      obtain ⟨first, after, more, hfirst, hmore, rfl⟩ := takeParts?_cons h
      rw [List.append_assoc]
      rcases endsInWord_cons hend with ⟨rfl, w, rfl, _⟩ | hend
      · cases hmore
        rw [takeParts?, Part.take?_again hfirst (Or.inr ⟨w, rfl⟩)]
        simp [takeParts?]
      · have hne := takeParts?_ne_nil hend hmore
        have happ := takeParts?_append hmore
        have hhead : (more ++ x).head? = after.head? := by
          rw [← happ]
          obtain ⟨b, t, rfl⟩ := List.exists_cons_of_ne_nil hne
          rfl
        rw [takeParts?, Part.take?_again hfirst (Or.inl hhead)]
        simp [ih hend hmore]

theorem take?_again {p : Pattern} (hmem : p ∈ dangerous) {before : Option UInt8}
    {s found rest : Bytes} (h : p.take? before s = some (found, rest)) (x : Bytes) :
    p.take? before (found ++ x) = some (found, x) := by
  obtain ⟨hblock, hparts⟩ := take?_eq_some.mp h
  refine take?_eq_some.mpr ⟨hblock, takeParts?_again ?_ hparts x⟩
  have hend := endsInWord_dangerous p hmem
  unfold endsInWord
  split
  · rename_i hnil
    cases hnil
  · rename_i heq
    rw [(List.cons.inj heq).2] at hend
    cases hend
  · rename_i heq
    rw [← (List.cons.inj heq).2]
    exact hend

/-!
## One pattern at a time
-/

theorem take?_eq_none_of_differs {p q : Pattern} (hdiffers : differs q.opening p.opening = true)
    {before before' : Option UInt8} {s : Bytes} {x : Bytes × Bytes}
    (h : p.take? before s = some x) : q.take? before' s = none := by
  obtain ⟨found, rest⟩ := x
  have happ := take?_append h
  obtain ⟨first, more, rfl, hfirst, _⟩ := take?_cases h
  rw [← happ, List.append_assoc]
  apply take?_of_differs
  rw [← differs_lower, hfirst]
  exact hdiffers

theorem takeParts?_eq_none_of_differs (parts : List Part) {w : Bytes} (w' : Bytes)
    (hdiffers : differs w' w = true) {s : Bytes} {x : Bytes × Bytes}
    (h : takeParts? (parts ++ [.word w]) s = some x) :
    takeParts? (parts ++ [.word w']) s = none := by
  induction parts generalizing s x with
  | nil =>
      simp only [List.nil_append, takeParts?, Part.take?] at h ⊢
      cases hdrop : dropWord? w s with
      | none => simp [hdrop] at h
      | some rest =>
          have hlower := lower_take_of_dropWord? hdrop
          have happ := take_append_of_dropWord? hdrop
          have hnone : dropWord? w' s = none := by
            rw [← happ]
            apply dropWord?_of_differs
            rw [← differs_lower, hlower]
            exact hdiffers
          simp [hnone]
  | cons part parts ih =>
      simp only [List.cons_append, takeParts?] at h ⊢
      split at h
      · cases h
      · rename_i first after hfirst
        obtain ⟨y, hy, _⟩ := Option.map_eq_some_iff.mp h
        simp [ih hy]

def Apart (p q : Pattern) : Prop :=
  ∀ before s, p.take? before s = none ∨ q.take? before s = none

theorem apart_of_differs {p q : Pattern} (h : differs q.opening p.opening = true) :
    Apart p q := by
  intro before s
  cases hp : p.take? before s with
  | none => exact Or.inl rfl
  | some x => exact Or.inr (take?_eq_none_of_differs h hp)

theorem apart_schemes : Apart (addressWith scriptScheme) (addressWith pageScheme) := by
  intro before s
  cases hp : (addressWith scriptScheme).take? before s with
  | none => exact Or.inl rfl
  | some x =>
      right
      have hscript := (take?_eq_some.mp hp).2
      have hpage := takeParts?_eq_none_of_differs
        [.word (ascii "url"), .blanks, .word (ascii "("), .blanks, .quote] pageScheme
        (by decide) hscript
      cases hq : (addressWith pageScheme).take? before s with
      | none => rfl
      | some y =>
          have hsome := (take?_eq_some.mp hq).2
          exact absurd (hpage.symm.trans hsome) nofun

theorem pairwise_apart : dangerous.Pairwise Apart := by
  have hexpression : ∀ q ∈ dangerous.drop 1, differs q.opening expression.opening = true := by
    decide
  have hbehavior : ∀ q ∈ dangerous.drop 2, differs q.opening behavior.opening = true := by
    decide
  have hbinding : ∀ q ∈ dangerous.drop 3, differs q.opening binding.opening = true := by
    decide
  have himport : ∀ scheme, differs scriptImport.opening (addressWith scheme).opening = true := by
    intro scheme
    rfl
  refine .cons (fun q hq => apart_of_differs (hexpression q hq)) ?_
  refine .cons (fun q hq => apart_of_differs (hbehavior q hq)) ?_
  refine .cons (fun q hq => apart_of_differs (hbinding q hq)) ?_
  refine .cons ?_ (.cons ?_ (.cons nofun .nil))
  · intro q hq
    rcases List.mem_cons.mp hq with rfl | hq
    · exact apart_schemes
    · obtain rfl := List.mem_singleton.mp hq
      exact apart_of_differs (himport _)
  · intro q hq
    obtain rfl := List.mem_singleton.mp hq
    exact apart_of_differs (himport _)

theorem findSome?_of_apart {patterns : List Pattern} {before : Option UInt8} {s : Bytes}
    {x : Bytes × Bytes} {p : Pattern} (hapart : patterns.Pairwise Apart) (hmem : p ∈ patterns)
    (h : p.take? before s = some x) : (patterns.findSome? fun q => q.take? before s) = some x := by
  induction hapart with
  | nil => cases hmem
  | cons hfirst _ ih =>
      rename_i q patterns _
      rcases List.mem_cons.mp hmem with rfl | hmem
      · simp [h]
      · rcases hfirst p hmem before s with hnone | hnone
        · simp [hnone, ih hmem]
        · rw [h] at hnone
          cases hnone

theorem matchAt?_eq_some {before : Option UInt8} {s : Bytes} {x : Bytes × Bytes} :
    matchAt? before s = some x ↔ ∃ p ∈ dangerous, p.take? before s = some x := by
  constructor
  · exact List.exists_of_findSome?_eq_some
  · rintro ⟨p, hmem, h⟩
    exact findSome?_of_apart pairwise_apart hmem h

theorem matchAt?_again {before : Option UInt8} {s found rest : Bytes}
    (h : matchAt? before s = some (found, rest)) (x : Bytes) :
    matchAt? before (found ++ x) = some (found, x) := by
  obtain ⟨p, hmem, hp⟩ := matchAt?_eq_some.mp h
  exact matchAt?_eq_some.mpr ⟨p, hmem, take?_again hmem hp x⟩

/-!
## The byte before a construct
-/

def inWord (before : Option UInt8) : Bool :=
  before.any isWordByte

theorem take?_of_inWord {p : Pattern} {before before' : Option UInt8}
    (h : inWord before = inWord before') (s : Bytes) : p.take? before s = p.take? before' s := by
  unfold inWord at h
  simp only [take?, h]

theorem matchAt?_of_inWord {before before' : Option UInt8} (h : inWord before = inWord before')
    (s : Bytes) : matchAt? before s = matchAt? before' s := by
  simp only [matchAt?, take?_of_inWord h]

theorem matchAt?_of_not_inWord {before before' : Option UInt8} {s : Bytes} {x : Bytes × Bytes}
    (h : matchAt? before s = some x) (hbefore : inWord before' = false) :
    matchAt? before' s = some x := by
  obtain ⟨p, hmem, hp⟩ := matchAt?_eq_some.mp h
  refine matchAt?_eq_some.mpr ⟨p, hmem, take?_eq_some.mpr ⟨?_, (take?_eq_some.mp hp).2⟩⟩
  unfold inWord at hbefore
  rw [hbefore, Bool.and_false]

theorem hidden_cases {before : Option UInt8} {s : Bytes} {x : Bytes × Bytes}
    (h : matchAt? none s = some x) (hhidden : matchAt? before s = none) :
    expression.take? none s = some x ∨ behavior.take? none s = some x := by
  obtain ⟨p, hmem, hp⟩ := matchAt?_eq_some.mp h
  have hwhole : p.wholeWord = true := by
    rw [← Bool.not_eq_false]
    intro hwhole
    have hsome : p.take? before s = some x :=
      take?_eq_some.mpr ⟨by rw [hwhole, Bool.false_and], (take?_eq_some.mp hp).2⟩
    rw [matchAt?_eq_some.mpr ⟨p, hmem, hsome⟩] at hhidden
    cases hhidden
  have hall : ∀ q ∈ dangerous.drop 2, q.wholeWord = false := by decide
  rcases List.mem_cons.mp hmem with rfl | hmem
  · exact Or.inl hp
  · rcases List.mem_cons.mp hmem with rfl | hmem
    · exact Or.inr hp
    · rw [hall p hmem] at hwhole
      cases hwhole

theorem eq_or_apart {patterns : List Pattern} {p q : Pattern} (hapart : patterns.Pairwise Apart)
    (hp : p ∈ patterns) (hq : q ∈ patterns) : p = q ∨ Apart p q := by
  induction hapart with
  | nil => cases hp
  | cons hfirst _ ih =>
      rcases List.mem_cons.mp hp with rfl | hp'
      · rcases List.mem_cons.mp hq with rfl | hq'
        · exact Or.inl rfl
        · exact Or.inr (hfirst q hq')
      · rcases List.mem_cons.mp hq with rfl | hq'
        · exact Or.inr fun before s => (hfirst p hp' before s).symm
        · exact ih hp' hq'

theorem matchAt?_hidden {q : Pattern} {before : Option UInt8} {s : Bytes} {x : Bytes × Bytes}
    (hmem : q ∈ dangerous) (hwhole : q.wholeWord = true) (h : q.take? none s = some x)
    (hbefore : inWord before = true) : matchAt? before s = none := by
  cases hmatch : matchAt? before s with
  | none => rfl
  | some y =>
      obtain ⟨p, hp, htake⟩ := matchAt?_eq_some.mp hmatch
      obtain ⟨hblock, hparts⟩ := take?_eq_some.mp htake
      unfold inWord at hbefore
      rw [hbefore, Bool.and_true] at hblock
      have hfree : p.take? none s = some y :=
        take?_eq_some.mpr ⟨by rw [hblock, Bool.false_and], hparts⟩
      rcases eq_or_apart pairwise_apart hp hmem with rfl | hapart
      · rw [hwhole] at hblock
        cases hblock
      · rcases hapart none s with hnone | hnone
        · rw [hfree] at hnone
          cases hnone
        · rw [h] at hnone
          cases hnone

theorem takeParts?_getLast? (parts : List Part) (w : Bytes) {c : UInt8} {s found rest : Bytes}
    (h : takeParts? (parts ++ [.word (w ++ [c])]) s = some (found, rest)) :
    ∃ b, found.getLast? = some b ∧ Byte.toLower b = c := by
  induction parts generalizing s found rest with
  | nil =>
      simp only [List.nil_append, takeParts?, Part.take?] at h
      cases hdrop : dropWord? (w ++ [c]) s with
      | none => simp [hdrop] at h
      | some after =>
          have hlower := lower_take_of_dropWord? hdrop
          simp only [hdrop, Option.map_some, Option.some.injEq, Prod.mk.injEq] at h
          obtain ⟨rfl, _⟩ := h
          rw [List.append_nil]
          generalize s.take (w ++ [c]).length = f at hlower
          rcases List.eq_nil_or_concat f with rfl | ⟨g, b, rfl⟩
          · simp [lower] at hlower
          · rw [List.concat_eq_append, lower_append] at hlower
            have hlast := List.append_inj_right' hlower rfl
            refine ⟨b, by simp, ?_⟩
            simpa [lower] using hlast
  | cons part parts ih =>
      rw [List.cons_append] at h
      obtain ⟨first, after, more, hfirst, hmore, rfl⟩ := takeParts?_cons h
      obtain ⟨b, hb, hlower⟩ := ih hmore
      refine ⟨b, ?_, hlower⟩
      rw [List.getLast?_append, hb]
      rfl

theorem toLower_eq_mark {b c : UInt8} (h : Byte.toLower b = c) (hc : Byte.isLower c = false) :
    b = c := by
  unfold Byte.toLower at h
  split at h
  · rename_i hup
    subst h
    simp only [Byte.isUpper, Byte.isLower, Bool.and_eq_true, Bool.and_eq_false_iff,
      decide_eq_true_eq, decide_eq_false_iff_not, UInt8.le_iff_toNat_le] at hup hc
    have hadd : (b + 0x20).toNat = (b.toNat + 0x20) % 256 := UInt8.toNat_add b 0x20
    simp at hup hc
    omega
  · exact h

theorem inWord_of_page {before : Option UInt8} {s found rest : Bytes}
    (h : (addressWith pageScheme).take? before s = some (found, rest)) :
    inWord found.getLast? = true := by
  obtain ⟨b, hb, hlower⟩ := takeParts?_getLast?
    [.word (ascii "url"), .blanks, .word (ascii "("), .blanks, .quote]
    (ascii "data:text/htm") (c := 0x6C) (take?_eq_some.mp h).2
  rw [hb]
  have hcases : b = 0x6C ∨ b = 0x4C := by
    unfold Byte.toLower at hlower
    split at hlower
    · right
      calc b = b + 0x20 - 0x20 := by simp
        _ = 0x4C := by rw [hlower]; decide
    · exact Or.inl hlower
  rcases hcases with rfl | rfl <;> decide

theorem page_of_inWord {before : Option UInt8} {s found rest : Bytes}
    (h : matchAt? before s = some (found, rest)) (hlast : inWord found.getLast? = true) :
    (addressWith pageScheme).take? before s = some (found, rest) := by
  obtain ⟨p, hmem, hp⟩ := matchAt?_eq_some.mp h
  have hparts := (take?_eq_some.mp hp).2
  have hmark : ∀ (parts : List Part) (w : Bytes) {c : UInt8}, Byte.isLower c = false ->
      isWordByte c = false ->
      .word p.opening :: p.parts = parts ++ [.word (w ++ [c])] -> False := by
    intro parts w c hlow hword heq
    rw [heq] at hparts
    obtain ⟨b, hb, hlower⟩ := takeParts?_getLast? parts w hparts
    obtain rfl := toLower_eq_mark hlower hlow
    rw [hb] at hlast
    simp [inWord, hword] at hlast
  simp only [dangerous, List.mem_cons, List.not_mem_nil, or_false] at hmem
  rcases hmem with rfl | rfl | rfl | rfl | rfl | rfl
  · exact (hmark [.word (ascii "expression"), .blanks] [] (c := 0x28)
      rfl rfl rfl).elim
  · exact (hmark [.word (ascii "behavior"), .blanks] [] (c := 0x3A)
      rfl rfl rfl).elim
  · exact (hmark [.word (ascii "-moz-binding"), .blanks] [] (c := 0x3A)
      rfl rfl rfl).elim
  · exact (hmark [.word (ascii "url"), .blanks, .word (ascii "("), .blanks, .quote]
      (ascii "javascript") (c := 0x3A) rfl rfl rfl).elim
  · exact hp
  · exact (hmark [.word (ascii "@import"), .blank, .blanks, .quote]
      (ascii "javascript") (c := 0x3A) rfl rfl rfl).elim

end Pattern
end StyleTrim
