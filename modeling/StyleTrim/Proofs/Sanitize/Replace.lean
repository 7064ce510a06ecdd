import StyleTrim.Proofs.Sanitize.Matching
import StyleTrim.Sanitize.Sanitizer

/-!
# The pass over plain patterns

The pass walks over the text and cuts out what it finds. `Reaches` says how far it has come. Where
a construct can be seen in what the pass wrote, one could be seen at the same place of the text it
read, only that there a word went on before it. That happens behind one cut alone: behind that of
an address with a page inside, which ends in a letter.
-/

namespace StyleTrim
namespace Sanitize

open Pattern

/-!
## The marker

No construct begins in a marker, and none that begins before it goes on into it.
-/

theorem marker_ne_nil : marker ≠ [] := by
  decide

theorem silentInside_marker : SilentInside marker :=
  silentInside_of_quietTails (w := lower marker) rfl (by decide +kernel)

theorem not_inWord_marker (x : Bytes) : inWord (x ++ marker).getLast? = false := by
  have hlast : marker.getLast? = some 0x2F := by decide
  rw [List.getLast?_append, hlast]
  rfl

def avoidsMarker : Bytes -> Bool
  | [] => true
  | b :: w => differs (b :: w) marker && avoidsMarker w

def partAvoidsMarker : Part -> Bool
  | .word w => avoidsMarker w
  | _ => true

theorem avoidsMarker_dangerous :
    ∀ p ∈ dangerous, avoidsMarker p.opening = true ∧ p.parts.all partAvoidsMarker = true := by
  decide +kernel

theorem dropWord?_stays {w z y rest : Bytes} (havoids : avoidsMarker w = true)
    (h : dropWord? w (z ++ (marker ++ y)) = some rest) :
    ∃ z', z = z.take w.length ++ z' ∧ rest = z' ++ (marker ++ y) ∧ w.length ≤ z.length := by
  induction w generalizing z with
  | nil =>
      refine ⟨z, by simp, ?_, Nat.zero_le _⟩
      have hnil : ∀ s, dropWord? [] s = some s := by
        intro s
        cases s <;> rfl
      rw [hnil] at h
      exact (Option.some.inj h).symm
  | cons c w ih =>
      rw [avoidsMarker, Bool.and_eq_true] at havoids
      cases z with
      | nil =>
          rw [List.nil_append, dropWord?_of_differs havoids.1 y] at h
          cases h
      | cons b z =>
          rw [List.cons_append, dropWord?] at h
          split at h
          · obtain ⟨z', hz, hrest, hlen⟩ := ih havoids.2 h
            refine ⟨z', ?_, hrest, Nat.succ_le_succ hlen⟩
            change b :: z = b :: (z.take w.length ++ z')
            rw [← hz]
          · cases h

theorem takeWhile_stays {p : UInt8 -> Bool} {y : Bytes} (hstop : ∀ b ∈ y.head?, p b = false)
    (z : Bytes) :
    ∃ z', z = (z ++ y).takeWhile p ++ z' ∧ (z ++ y).dropWhile p = z' ++ y := by
  induction z with
  | nil =>
      refine ⟨[], ?_, ?_⟩
      · cases y with
        | nil => rfl
        | cons b y => simp [hstop b rfl]
      · cases y with
        | nil => rfl
        | cons b y => simp [hstop b rfl]
  | cons b z ih =>
      by_cases hb : p b = true
      · obtain ⟨z', hz, hrest⟩ := ih
        refine ⟨z', ?_, ?_⟩
        · simp only [List.cons_append, List.takeWhile_cons_of_pos hb]
          rw [← hz]
        · simp only [List.cons_append, List.dropWhile_cons_of_pos hb]
          exact hrest
      · refine ⟨b :: z, ?_, ?_⟩
        · simp only [List.cons_append, List.takeWhile_cons_of_neg hb]
          rfl
        · simp only [List.cons_append, List.dropWhile_cons_of_neg hb]

theorem part_stays {part : Part} {z y found rest : Bytes}
    (havoids : partAvoidsMarker part = true)
    (h : part.take? (z ++ (marker ++ y)) = some (found, rest)) :
    ∃ z', z = found ++ z' ∧ rest = z' ++ (marker ++ y) := by
  obtain ⟨t, ht⟩ : ∃ t, marker ++ y = 0x2F :: t := ⟨_, rfl⟩
  cases part with
  | word w =>
      obtain ⟨after, hdrop, heq⟩ := Option.map_eq_some_iff.mp h
      cases heq
      obtain ⟨z', hz, hrest, hlen⟩ := dropWord?_stays havoids hdrop
      refine ⟨z', ?_, hrest⟩
      rw [List.take_append_of_le_length hlen]
      exact hz
  | blank =>
      cases z with
      | nil =>
          rw [ht] at h
          cases h
      | cons b z =>
          rw [List.cons_append] at h
          unfold Part.take? at h
          dsimp only at h
          split at h
          · cases h
            exact ⟨z, rfl, rfl⟩
          · cases h
  | blanks =>
      have hstop : ∀ b ∈ (marker ++ y).head?, Byte.isBlank b = false := by
        rw [ht]
        intro b hb
        obtain rfl : 0x2F = b := by simpa using hb
        decide
      cases h
      exact takeWhile_stays hstop z
  | quote =>
      cases z with
      | nil =>
          rw [ht] at h ⊢
          cases h
          exact ⟨[], rfl, rfl⟩
      | cons b z =>
          rw [List.cons_append] at h
          unfold Part.take? at h
          dsimp only at h
          split at h
          · cases h
            exact ⟨z, rfl, rfl⟩
          · cases h
            exact ⟨b :: z, rfl, rfl⟩

theorem takeParts?_stays (parts : List Part) {z y found rest : Bytes}
    (havoids : parts.all partAvoidsMarker = true)
    (h : takeParts? parts (z ++ (marker ++ y)) = some (found, rest)) :
    ∃ z', z = found ++ z' ∧ rest = z' ++ (marker ++ y) := by
  induction parts generalizing z found with
  | nil =>
      cases h
      exact ⟨z, rfl, rfl⟩
  | cons part parts ih =>
      rw [List.all_cons, Bool.and_eq_true] at havoids
      obtain ⟨first, after, more, hfirst, hmore, rfl⟩ := takeParts?_cons h
      obtain ⟨z1, rfl, rfl⟩ := part_stays havoids.1 hfirst
      obtain ⟨z2, rfl, rfl⟩ := ih havoids.2 hmore
      exact ⟨z2, by simp, rfl⟩

theorem matchAt?_stays {before : Option UInt8} {z y found rest : Bytes}
    (h : matchAt? before (z ++ (marker ++ y)) = some (found, rest)) :
    ∃ z', z = found ++ z' := by
  obtain ⟨p, hmem, hp⟩ := matchAt?_eq_some.mp h
  obtain ⟨hopening, hparts⟩ := avoidsMarker_dangerous p hmem
  obtain ⟨z', hz, _⟩ := takeParts?_stays (.word p.opening :: p.parts)
    (by simp only [List.all_cons, partAvoidsMarker, hopening, hparts, Bool.and_true])
    (take?_eq_some.mp hp).2
  exact ⟨z', hz⟩

theorem matchAt?_marker (before : Option UInt8) (y : Bytes) :
    matchAt? before (marker ++ y) = none :=
  silentInside_marker [] marker rfl marker_ne_nil before y

/-!
## The equations of the pass
-/

theorem replaceFrom_nil (before : Option UInt8) (done : Bytes) :
    replaceFrom before [] done = done.reverse := by
  rw [replaceFrom]

theorem replaceFrom_cut {before : Option UInt8} {s found rest : Bytes}
    (h : matchAt? before s = some (found, rest)) (done : Bytes) :
    replaceFrom before s done = replaceFrom found.getLast? rest (marker.reverse ++ done) := by
  cases s with
  | nil =>
      have happ := matchAt?_append h
      exact absurd (List.append_eq_nil_iff.mp happ).1 (matchAt?_ne_nil h)
  | cons b tail =>
      rw [replaceFrom]
      split
      · rename_i found' rest' h'
        rw [h] at h'
        cases h'
        rfl
      · rename_i h'
        rw [h] at h'
        cases h'

theorem replaceFrom_keep {before : Option UInt8} {b : UInt8} {tail : Bytes}
    (h : matchAt? before (b :: tail) = none) (done : Bytes) :
    replaceFrom before (b :: tail) done = replaceFrom (some b) tail (b :: done) := by
  rw [replaceFrom]
  split
  · rename_i found' rest' h'
    rw [h] at h'
    cases h'
  · rfl

theorem replaceFrom_done (before : Option UInt8) (s done : Bytes) :
    replaceFrom before s done = done.reverse ++ replaceFrom before s [] := by
  induction hn : s.length using Nat.strongRecOn generalizing before s done with
  | ind n ih =>
    cases hmatch : matchAt? before s with
    | some x =>
        obtain ⟨found, rest⟩ := x
        have hlt := matchAt?_length hmatch
        rw [replaceFrom_cut hmatch done, replaceFrom_cut hmatch [],
          ih rest.length (hn ▸ hlt) _ _ (marker.reverse ++ done) rfl,
          ih rest.length (hn ▸ hlt) _ _ (marker.reverse ++ []) rfl]
        simp
    | none =>
        cases s with
        | nil => simp [replaceFrom_nil]
        | cons b tail =>
            have hlt : tail.length < n := by simp [← hn]
            rw [replaceFrom_keep hmatch done, replaceFrom_keep hmatch [],
              ih tail.length hlt _ _ (b :: done) rfl, ih tail.length hlt _ _ [b] rfl]
            simp

def replaceBehind (before : Option UInt8) (s : Bytes) : Bytes :=
  replaceFrom before s []

theorem replaceBehind_cut {before : Option UInt8} {s found rest : Bytes}
    (h : matchAt? before s = some (found, rest)) :
    replaceBehind before s = marker ++ replaceBehind found.getLast? rest := by
  unfold replaceBehind
  rw [replaceFrom_cut h, replaceFrom_done]
  simp

theorem replaceBehind_keep {before : Option UInt8} {b : UInt8} {tail : Bytes}
    (h : matchAt? before (b :: tail) = none) :
    replaceBehind before (b :: tail) = b :: replaceBehind (some b) tail := by
  unfold replaceBehind
  rw [replaceFrom_keep h, replaceFrom_done]
  rfl

theorem replaceBehind_nil (before : Option UInt8) : replaceBehind before [] = [] :=
  replaceFrom_nil before []

theorem replaceBehind_cases (before : Option UInt8) (s : Bytes) :
    (replaceBehind before s = s ∧ ∀ x y, s = x ++ y -> matchAt? (x.getLast?.or before) y = none) ∨
      ∃ z rest y, s = z ++ rest ∧ replaceBehind before s = z ++ (marker ++ y) ∧
        (matchAt? (z.getLast?.or before) rest).isSome = true := by
  induction s generalizing before with
  | nil =>
      refine Or.inl ⟨replaceBehind_nil before, ?_⟩
      intro x y hxy
      obtain ⟨rfl, rfl⟩ := List.append_eq_nil_iff.mp hxy.symm
      cases hmatch : matchAt? (([] : Bytes).getLast?.or before) [] with
      | none => rfl
      | some found =>
          have happ := matchAt?_append hmatch
          exact absurd (List.append_eq_nil_iff.mp happ).1 (matchAt?_ne_nil hmatch)
  | cons b tail ih =>
      cases hmatch : matchAt? before (b :: tail) with
      | some x =>
          obtain ⟨found, rest⟩ := x
          refine Or.inr ⟨[], b :: tail, _, rfl, replaceBehind_cut hmatch, ?_⟩
          change (matchAt? before (b :: tail)).isSome = true
          rw [hmatch]
          rfl
      | none =>
          have hlast : ∀ x : Bytes, (b :: x).getLast?.or before = x.getLast?.or (some b) := by
            intro x
            cases hx : x.getLast? with
            | none =>
                obtain rfl := List.getLast?_eq_none_iff.mp hx
                rfl
            | some c =>
                rw [List.getLast?_cons, hx]
                rfl
          rw [replaceBehind_keep hmatch]
          rcases ih (some b) with ⟨hsame, hclean⟩ | ⟨z, rest, y, htail, hy, hfound⟩
          · refine Or.inl ⟨by rw [hsame], ?_⟩
            intro x y hxy
            cases x with
            | nil =>
                obtain rfl : b :: tail = y := hxy
                exact hmatch
            | cons c x =>
                obtain ⟨rfl, htail⟩ := List.cons.inj hxy
                rw [hlast]
                exact hclean x y htail
          · refine Or.inr ⟨b :: z, rest, y, by rw [htail]; rfl, by rw [hy]; rfl, ?_⟩
            rw [hlast]
            exact hfound

theorem matchAt?_of_replaceBehind {before before' : Option UInt8} {s found rest : Bytes}
    (h : matchAt? before (replaceBehind before' s) = some (found, rest)) :
    ∃ rest', matchAt? before s = some (found, rest') := by
  rcases replaceBehind_cases before' s with ⟨hsame, _⟩ | ⟨z, t, y, rfl, hy, _⟩
  · rw [hsame] at h
    exact ⟨rest, h⟩
  · rw [hy] at h
    obtain ⟨z', rfl⟩ := matchAt?_stays h
    rw [List.append_assoc]
    exact ⟨_, matchAt?_again h _⟩

/-!
## How far the pass has come
-/

/-- The pass over `s` has read `done`, has written `written`, and `left` is still before it. -/
inductive Reaches (s : Bytes) : Bytes -> Bytes -> Bytes -> Prop where
  | start : Reaches s [] [] s
  | keep {done written left : Bytes} {b : UInt8} (h : Reaches s done written (b :: left))
      (hnone : matchAt? done.getLast? (b :: left) = none) :
      Reaches s (done ++ [b]) (written ++ [b]) left
  | cut {done written left found rest : Bytes} (h : Reaches s done written left)
      (hfound : matchAt? done.getLast? left = some (found, rest)) :
      Reaches s (done ++ found) (written ++ marker) rest

theorem getLast?_append_of_ne_nil {x y : Bytes} (hne : y ≠ []) :
    (x ++ y).getLast? = y.getLast? := by
  rcases List.eq_nil_or_concat y with hnil | ⟨z, b, rfl⟩
  · exact absurd hnil hne
  · simp

theorem Reaches.split {s done written left : Bytes} (h : Reaches s done written left) :
    s = done ++ left ∧
      replacePatterns s = written ++ replaceBehind done.getLast? left := by
  induction h with
  | start => exact ⟨rfl, rfl⟩
  | keep h hnone ih =>
      rename_i done written left b
      obtain ⟨hs, hout⟩ := ih
      refine ⟨by simpa using hs, ?_⟩
      rw [hout, replaceBehind_keep hnone, List.append_assoc, List.getLast?_concat]
      rfl
  | cut h hfound ih =>
      rename_i done written left found rest
      obtain ⟨hs, hout⟩ := ih
      refine ⟨?_, ?_⟩
      · rw [hs, List.append_assoc, matchAt?_append hfound]
      · rw [hout, replaceBehind_cut hfound, List.append_assoc,
          getLast?_append_of_ne_nil (matchAt?_ne_nil hfound)]

theorem Reaches.cutShort {s done written left : Bytes} (h : Reaches s done written left)
    (x y : Bytes) (hleft : left = x ++ y) : Reaches (done ++ x) done written x := by
  induction h generalizing x with
  | start => exact .start
  | keep h hnone ih =>
      rename_i done written left b
      have hprev := ih (b :: x) (by rw [hleft]; rfl)
      rw [List.append_assoc]
      apply Reaches.keep hprev
      cases hmatch : matchAt? done.getLast? (b :: x) with
      | none => rfl
      | some found =>
          obtain ⟨f, r⟩ := found
          have hagain := matchAt?_again hmatch (r ++ y)
          rw [← List.append_assoc, matchAt?_append hmatch, List.cons_append, ← hleft, hnone]
            at hagain
          cases hagain
  | cut h hfound ih =>
      rename_i done written left found rest
      have hprev := ih (found ++ x) (by
        rw [← matchAt?_append hfound, hleft, List.append_assoc])
      rw [List.append_assoc]
      exact .cut hprev (matchAt?_again hfound x)

theorem Reaches.written_eq {s done written left : Bytes} (h : Reaches s done written left) :
    replacePatterns done = written := by
  have hshort := h.cutShort [] left rfl
  rw [List.append_nil] at hshort
  rw [hshort.split.2, replaceBehind_nil, List.append_nil]

theorem Reaches.at_match {s done written left : Bytes} (h : Reaches s done written left)
    {x y : Bytes} (hout : replaceBehind done.getLast? left = x ++ y) {before : Option UInt8}
    {found : Bytes × Bytes} (hmatch : matchAt? before y = some found) :
    ∃ done' left', Reaches s done' (written ++ x) left' := by
  induction hn : left.length using Nat.strongRecOn generalizing done written left x with
  | ind n ih =>
    by_cases hx : x = []
    · subst hx
      exact ⟨done, left, by simpa using h⟩
    cases hnext : matchAt? done.getLast? left with
    | some cut =>
        obtain ⟨f, r⟩ := cut
        rw [replaceBehind_cut hnext] at hout
        rcases List.append_eq_append_iff.mp hout with ⟨x', rfl, hy⟩ | ⟨y', hmarker, rfl⟩
        · have hlt := hn ▸ matchAt?_length hnext
          rw [← getLast?_append_of_ne_nil (x := done) (matchAt?_ne_nil hnext)] at hy
          obtain ⟨done', left', hreach⟩ := ih r.length hlt (h.cut hnext) hy rfl
          exact ⟨done', left', by simpa using hreach⟩
        · by_cases hy' : y' = []
          · subst hy'
            rw [List.append_nil] at hmarker
            exact ⟨done ++ f, r, hmarker ▸ h.cut hnext⟩
          · rw [silentInside_marker x y' hmarker hy' before _] at hmatch
            cases hmatch
    | none =>
        cases left with
        | nil =>
            rw [replaceBehind_nil] at hout
            exact absurd (List.append_eq_nil_iff.mp hout.symm).1 hx
        | cons b tail =>
            rw [replaceBehind_keep hnext] at hout
            obtain ⟨c, x', rfl⟩ := List.exists_cons_of_ne_nil hx
            obtain ⟨rfl, htail⟩ := List.cons.inj hout
            have hlt : tail.length < n := by simp [← hn]
            have hlast : (done ++ [b]).getLast? = some b := by simp
            rw [← hlast] at htail
            obtain ⟨done', left', hreach⟩ := ih tail.length hlt (h.keep hnext) htail rfl
            exact ⟨done', left', by simpa using hreach⟩

theorem Reaches.to_match {s done written x left : Bytes} (h : Reaches s done written (x ++ left))
    {found : Bytes × Bytes} (hmatch : matchAt? (done ++ x).getLast? left = some found) :
    ∃ written', Reaches s (done ++ x) written' left := by
  induction hn : x.length using Nat.strongRecOn generalizing done written x with
  | ind n ih =>
    by_cases hx : x = []
    · subst hx
      exact ⟨written, by simpa using h⟩
    cases hnext : matchAt? done.getLast? (x ++ left) with
    | some cut =>
        obtain ⟨f, r⟩ := cut
        have hne := matchAt?_ne_nil hnext
        rcases List.append_eq_append_iff.mp (matchAt?_append hnext) with
          ⟨x', rfl, rfl⟩ | ⟨y, rfl, rfl⟩
        · have hlt : x'.length < n := by
            have hpos := List.length_pos_iff.mpr hne
            rw [← hn, List.length_append]
            omega
          rw [← List.append_assoc] at hmatch ⊢
          exact ih x'.length hlt (h.cut hnext) hmatch rfl
        · by_cases hy : y = []
          · subst hy
            rw [List.append_nil] at hnext
            exact ⟨_, h.cut hnext⟩
          · have hsilent := silent_behind_front hnext rfl hx hy
            rw [hsilent] at hmatch
            cases hmatch
    | none =>
        obtain ⟨b, x', rfl⟩ := List.exists_cons_of_ne_nil hx
        have hlt : x'.length < n := by simp [← hn]
        have hsplit : done ++ b :: x' = done ++ [b] ++ x' := by simp
        rw [hsplit] at hmatch ⊢
        exact ih x'.length hlt (h.keep hnext) hmatch rfl

/-!
## What no pattern takes

No pattern has a backslash in it, or a mark that ends something.
-/

def lacks (c : UInt8) : Part -> Bool
  | .word w => !w.contains (Byte.toLower c)
  | .blank => !Byte.isBlank c
  | .blanks => !Byte.isBlank c
  | .quote => !Byte.isQuote c

def IsForeign (c : UInt8) : Prop :=
  ∀ p ∈ dangerous, (Part.word p.opening :: p.parts).all (lacks c) = true

instance (c : UInt8) : Decidable (IsForeign c) :=
  inferInstanceAs (Decidable (∀ p ∈ dangerous, _))

variable {c : UInt8}

theorem not_mem_part {part : Part} {s found rest : Bytes} (hlacks : lacks c part = true)
    (h : part.take? s = some (found, rest)) : c ∉ found := by
  cases part with
  | word w =>
      rcases Option.map_eq_some_iff.mp h with ⟨after, hdrop, heq⟩
      cases heq
      intro hmem
      have hlower : Byte.toLower c ∈ lower (s.take w.length) := List.mem_map_of_mem hmem
      rw [lower_take_of_dropWord? hdrop] at hlower
      simp only [lacks, Bool.not_eq_true', List.contains_eq_mem, decide_eq_false_iff_not]
        at hlacks
      exact hlacks hlower
  | blank =>
      simp only [Part.take?] at h
      split at h
      · cases h
      · split at h
        · rename_i b rest' hblank
          cases h
          intro hmem
          rw [List.mem_singleton] at hmem
          subst hmem
          simp [lacks, hblank] at hlacks
        · cases h
  | blanks =>
      cases h
      intro hmem
      have hblank := List.all_eq_true.mp (List.all_takeWhile) _ hmem
      simp [lacks, hblank] at hlacks
  | quote =>
      simp only [Part.take?] at h
      split at h
      · cases h
        exact List.not_mem_nil
      · split at h
        · rename_i b rest' hquote
          cases h
          intro hmem
          rw [List.mem_singleton] at hmem
          subst hmem
          simp [lacks, hquote] at hlacks
        · cases h
          exact List.not_mem_nil

theorem not_mem_parts {parts : List Part} {s found rest : Bytes}
    (hlacks : parts.all (lacks c) = true) (h : takeParts? parts s = some (found, rest)) :
    c ∉ found := by
  induction parts generalizing s found rest with
  | nil =>
      cases h
      exact List.not_mem_nil
  | cons part parts ih =>
      rw [List.all_cons, Bool.and_eq_true] at hlacks
      rcases takeParts?_cons h with ⟨first, after, more, hfirst, hmore, rfl⟩
      rw [List.mem_append]
      rintro (hmem | hmem)
      · exact not_mem_part hlacks.1 hfirst hmem
      · exact ih hlacks.2 hmore hmem

theorem not_mem_matchAt? (hc : IsForeign c) {before : Option UInt8} {s found rest : Bytes}
    (h : matchAt? before s = some (found, rest)) : c ∉ found := by
  rcases matchAt?_eq_some.mp h with ⟨p, hmem, htake⟩
  exact not_mem_parts (hc p hmem) (take?_eq_some.mp htake).2

theorem backslash_replaceBehind (before : Option UInt8) (s : Bytes) :
    0x5C ∈ replaceBehind before s ↔ 0x5C ∈ s := by
  induction hlength : s.length using Nat.strongRecOn generalizing before s with
  | ind n ih =>
    cases s with
    | nil => rw [replaceBehind_nil]
    | cons b tail =>
        cases hmatch : matchAt? before (b :: tail) with
        | none =>
            rw [replaceBehind_keep hmatch, List.mem_cons, List.mem_cons,
              ih tail.length (by simp [← hlength]) _ _ rfl]
        | some found =>
            rcases found with ⟨found, rest⟩
            have hshorter := matchAt?_length hmatch
            have hmarker : 0x5C ∉ marker := by decide +kernel
            have hforeign : IsForeign 0x5C := by decide
            rw [replaceBehind_cut hmatch, ← matchAt?_append hmatch, List.mem_append,
              List.mem_append, ih rest.length (hlength ▸ hshorter) _ _ rfl,
              or_iff_right hmarker, or_iff_right (not_mem_matchAt? hforeign hmatch)]

theorem contains_replacePatterns (s : Bytes) :
    (replacePatterns s).contains 0x5C = s.contains 0x5C := by
  rw [List.contains_eq_mem, List.contains_eq_mem, decide_eq_decide]
  exact backslash_replaceBehind none s

end Sanitize
end StyleTrim
