import StyleTrim.Proofs.Sanitize.Spans

/-!
# What sanitizing leaves

Sanitizing is not always clean. A cut of the first pass that ends in a letter takes away what kept
the bytes behind it from being a word of their own, so an expression or a behavior may then stand
there for all to see. Nothing else is left, and the second pass adds nothing to it.
-/

namespace StyleTrim
namespace Sanitize

open Pattern

/-- The construct `found` can be seen in the text behind `x`. -/
structure SeenAt (s x found rest : Bytes) : Prop where
  split : s = x ++ (found ++ rest)
  seen : matchAt? x.getLast? (found ++ rest) = some (found, rest)

/-- No dangerous construct can be seen at any place of the text. -/
def Clean (s : Bytes) : Prop :=
  ∀ x y, s = x ++ y -> matchAt? x.getLast? y = none

theorem clean_iff (s : Bytes) : Clean s ↔ ¬ ∃ x found rest, SeenAt s x found rest := by
  constructor
  · rintro h ⟨x, found, rest, hsplit, hseen⟩
    rw [h x _ hsplit] at hseen
    cases hseen
  · intro h x y hsplit
    cases hmatch : matchAt? x.getLast? y with
    | none => rfl
    | some match' =>
        obtain ⟨found, rest⟩ := match'
        have happ := matchAt?_append hmatch
        rw [← happ] at hsplit hmatch
        exact absurd ⟨x, found, rest, hsplit, hmatch⟩ h

/-!
## What the first pass leaves
-/

/-- Behind `cut`, which is an address with a page inside, stands `found`. It would be an expression
or a behavior if the last letter of the address did not stand before it. -/
structure LaidBare (s front cut found after : Bytes) : Prop where
  split : s = front ++ (cut ++ (found ++ after))
  page : (addressWith pageScheme).take? front.getLast? (cut ++ (found ++ after)) =
    some (cut, found ++ after)
  word : expression.take? none (found ++ after) = some (found, after) ∨
    behavior.take? none (found ++ after) = some (found, after)

theorem laidBare_of_seenAt {s x found rest : Bytes}
    (h : SeenAt (replacePatterns s) x found rest) :
    ∃ front cut after, LaidBare s front cut found after ∧ x = replacePatterns (front ++ cut) := by
  obtain ⟨hsplit, hseen⟩ := h
  obtain ⟨done, left, hreach⟩ := Reaches.start.at_match (s := s) (x := x) hsplit hseen
  rw [List.nil_append] at hreach
  have hout := hreach.split.2
  rw [hsplit] at hout
  have hfront := List.append_cancel_left hout
  have hleft : matchAt? done.getLast? left = none := by
    cases hmatch : matchAt? done.getLast? left with
    | none => rfl
    | some match' =>
        rw [hfront, replaceBehind_cut hmatch, matchAt?_marker] at hseen
        cases hseen
  rw [hfront] at hseen
  obtain ⟨after, hfound⟩ := matchAt?_of_replaceBehind hseen
  cases hreach with
  | start =>
      rw [hleft] at hfound
      cases hfound
  | keep h hnone =>
      rw [List.getLast?_concat] at hleft hfound
      rw [hleft] at hfound
      cases hfound
  | cut h hcut =>
      rename_i front written left' cut
      have hs := h.split.1
      rw [getLast?_append_of_ne_nil (matchAt?_ne_nil hcut)] at hleft
      have hword : inWord cut.getLast? = true := by
        rw [← Bool.not_eq_false]
        intro hnot
        rw [matchAt?_of_not_inWord hfound hnot] at hleft
        cases hleft
      have hnone : matchAt? none left = some (found, after) := by
        rw [← hfound]
        apply matchAt?_of_inWord
        rw [not_inWord_marker]
        rfl
      have happ := matchAt?_append hfound
      have hcut' := matchAt?_append hcut
      refine ⟨front, cut, after, ⟨?_, ?_, ?_⟩, (h.cut hcut).written_eq.symm⟩
      · rw [hs, ← hcut', happ]
      · rw [happ, hcut']
        exact page_of_inWord hcut hword
      · rw [happ]
        exact hidden_cases hnone hleft

theorem replaceBehind_silent {before : Option UInt8} {x y : Bytes}
    (hfront : matchAt? before (x ++ y) = none) (hinside : ∀ a b, x = a ++ b -> a ≠ [] -> b ≠ [] ->
      Silent b) : ∃ z, replaceBehind before (x ++ y) = x ++ z := by
  induction x generalizing before with
  | nil => exact ⟨_, rfl⟩
  | cons b x ih =>
      rw [List.cons_append] at hfront ⊢
      rw [replaceBehind_keep hfront]
      by_cases hx : x = []
      · subst hx
        exact ⟨_, rfl⟩
      · have hnext : matchAt? (some b) (x ++ y) = none :=
          hinside [b] x rfl (List.cons_ne_nil _ _) hx (some b) y
        obtain ⟨z, hz⟩ := ih hnext fun a c hac _ hc =>
          hinside (b :: a) c (by rw [hac]; rfl) (List.cons_ne_nil _ _) hc
        exact ⟨z, by rw [hz]; rfl⟩

theorem LaidBare.matches {s front cut found after : Bytes}
    (h : LaidBare s front cut found after) :
    ∃ q ∈ dangerous, q.wholeWord = true ∧
      q.take? none (found ++ after) = some (found, after) := by
  rcases h.word with hword | hword
  · exact ⟨expression, by simp [dangerous], rfl, hword⟩
  · exact ⟨behavior, by simp [dangerous], rfl, hword⟩

theorem seenAt_of_laidBare {s front cut found after : Bytes}
    (h : LaidBare s front cut found after) :
    ∃ rest, SeenAt (replacePatterns s) (replacePatterns (front ++ cut)) found rest := by
  obtain ⟨q, hmem, hwhole, htake⟩ := h.matches
  have hpage : addressWith pageScheme ∈ dangerous := by simp [dangerous]
  have hcut : matchAt? front.getLast? (cut ++ (found ++ after)) = some (cut, found ++ after) :=
    matchAt?_eq_some.mpr ⟨_, hpage, h.page⟩
  have hfound : matchAt? none (found ++ after) = some (found, after) :=
    matchAt?_eq_some.mpr ⟨q, hmem, htake⟩
  have hhidden := matchAt?_hidden hmem hwhole htake (inWord_of_page h.page)
  have hstart : Reaches s [] [] (front ++ (cut ++ (found ++ after))) := by
    rw [← h.split]
    exact .start
  obtain ⟨written, hreach⟩ := hstart.to_match (by simpa using hcut)
  rw [List.nil_append] at hreach
  have hnext := hreach.cut hcut
  obtain ⟨z, hz⟩ := replaceBehind_silent hhidden fun a b hab ha hb =>
    silent_behind_front hfound hab ha hb
  refine ⟨z, ?_, ?_⟩
  · rw [hnext.split.2, hnext.written_eq, getLast?_append_of_ne_nil (matchAt?_ne_nil hcut), hz]
  · rw [hnext.written_eq]
    apply matchAt?_of_not_inWord (matchAt?_again hfound z)
    exact not_inWord_marker written

/-!
## What the second pass leaves
-/

def Untouched (spans : List Span) (start stop : Nat) : Prop :=
  ∀ span ∈ spans, span.stop ≤ start ∨ stop ≤ span.start

structure SeenBehind (before : Option UInt8) (s x found rest : Bytes) : Prop where
  split : s = x ++ (found ++ rest)
  seen : matchAt? (x.getLast?.or before) (found ++ rest) = some (found, rest)

theorem seenBehind_none {s x found rest : Bytes} :
    SeenBehind none s x found rest ↔ SeenAt s x found rest := by
  constructor
  · rintro ⟨hsplit, hseen⟩
    rw [Option.or_none] at hseen
    exact ⟨hsplit, hseen⟩
  · rintro ⟨hsplit, hseen⟩
    refine ⟨hsplit, ?_⟩
    rw [Option.or_none]
    exact hseen

theorem seenBehind_append {before : Option UInt8} {y s x found rest : Bytes} (hne : y ≠ []) :
    SeenBehind before (y ++ s) (y ++ x) found rest ↔ SeenBehind y.getLast? s x found rest := by
  have hlast : (y ++ x).getLast?.or before = x.getLast?.or y.getLast? := by
    rw [List.getLast?_append, List.getLast?_eq_some_getLast hne]
    cases x.getLast? <;> rfl
  constructor
  · rintro ⟨hsplit, hseen⟩
    rw [List.append_assoc] at hsplit
    rw [hlast] at hseen
    exact ⟨List.append_cancel_left hsplit, hseen⟩
  · rintro ⟨hsplit, hseen⟩
    refine ⟨by rw [hsplit, List.append_assoc], ?_⟩
    rw [hlast]
    exact hseen

theorem inWord_of_cut {before before' : Option UInt8} {s : Bytes}
    (h : s = [] ∨ inWord before = inWord before') {x found rest : Bytes}
    (hseen : SeenBehind before s x found rest) : SeenBehind before' s x found rest := by
  refine ⟨hseen.split, ?_⟩
  rw [← hseen.seen]
  rcases h with hnil | hword
  · have hne := matchAt?_ne_nil hseen.seen
    have hsplit := hseen.split
    rw [hnil] at hsplit
    exact absurd (List.append_eq_nil_iff.mp
      (List.append_eq_nil_iff.mp hsplit.symm).2).1 hne
  · apply matchAt?_of_inWord
    cases x.getLast? with
    | none => exact hword.symm
    | some b => rfl

theorem inWord_marker : inWord marker.getLast? = false := by
  decide

theorem append_cases {front y c z : Bytes} (h : front ++ y = c ++ z) :
    (∃ x, c = front ++ x ∧ y = x ++ z) ∨ (∃ d, d ≠ [] ∧ front = c ++ d ∧ z = d ++ y) := by
  rcases List.append_eq_append_iff.mp h with ⟨x, hc, hy⟩ | ⟨d, hfront, hz⟩
  · exact Or.inl ⟨x, hc, hy⟩
  · by_cases hd : d = []
    · subst hd
      rw [List.append_nil] at hfront
      exact Or.inl ⟨[], by rw [hfront, List.append_nil], hz.symm⟩
    · exact Or.inr ⟨d, hd, hfront, hz⟩

theorem seen_before_cuts {offset : Nat} {s : Bytes} {spans : List Span}
    (h : Fits offset s spans) {before : Option UInt8} {x found rest : Bytes}
    (hseen : SeenBehind before (replaceSpans offset s spans) x found rest) :
    ∃ x' rest', SeenBehind before s x' found rest' ∧
      Untouched spans (offset + x'.length) (offset + x'.length + found.length) := by
  induction h generalizing before x with
  | nil => exact ⟨x, rest, hseen, nofun⟩
  | cons hne hlast htail ih =>
      rename_i offset kept cut tail spans
      rw [replaceSpans_cons] at hseen
      rcases append_cases hseen.split with ⟨c, rfl, hc⟩ | ⟨c, _, rfl, hc⟩
      · rcases append_cases hc with ⟨x', rfl, hx'⟩ | ⟨d, hne', hmarker, hd⟩
        · -- behind the marker
          rw [← List.append_assoc, ← List.append_assoc kept marker,
            seenBehind_append (by simp [marker_ne_nil]),
            getLast?_append_of_ne_nil marker_ne_nil] at hseen
          obtain ⟨x1, rest1, hseen1, huntouched⟩ := ih hseen
          have hword : tail = [] ∨ inWord marker.getLast? = inWord cut.getLast? :=
            hlast.imp_right fun hword => inWord_marker.trans hword.symm
          refine ⟨kept ++ cut ++ x1, rest1, ?_, ?_⟩
          · rw [← List.append_assoc, seenBehind_append (by simp [hne]),
              getLast?_append_of_ne_nil hne]
            exact inWord_of_cut hword hseen1
          · intro span hspan
            rcases List.mem_cons.mp hspan with rfl | hspan
            · left
              simp only [List.length_append]
              omega
            · have hside := huntouched span hspan
              simp only [List.length_append] at hside ⊢
              omega
        · -- inside of the marker nothing begins
          have hseen' := hseen.seen
          rw [hd, silentInside_marker c d hmarker hne'] at hseen'
          cases hseen'
      · -- before the cut
        have hseen' := hseen.seen
        rw [hc] at hseen'
        obtain ⟨z, rfl⟩ := matchAt?_stays hseen'
        have hagain := matchAt?_again hseen' (z ++ (cut ++ tail))
        refine ⟨x, z ++ (cut ++ tail), ⟨by simp, hagain⟩, ?_⟩
        intro span hspan
        right
        rcases List.mem_cons.mp hspan with rfl | hspan
        · simp only [List.length_append]
          omega
        · have hle := htail.start_le span hspan
          simp only [List.length_append] at hle
          omega

theorem Untouched.tail {span : Span} {spans : List Span} {start stop : Nat}
    (h : Untouched (span :: spans) start stop) : Untouched spans start stop :=
  fun other hother => h other (List.mem_cons_of_mem _ hother)

theorem seen_behind_cuts {offset : Nat} {s : Bytes} {spans : List Span}
    (h : Fits offset s spans) {before : Option UInt8} {x found rest : Bytes}
    (hseen : SeenBehind before s x found rest)
    (huntouched : Untouched spans (offset + x.length) (offset + x.length + found.length)) :
    ∃ x' rest', SeenBehind before (replaceSpans offset s spans) x' found rest' := by
  induction h generalizing before x with
  | nil => exact ⟨x, rest, hseen⟩
  | cons hne hlast htail ih =>
      rename_i offset kept cut tail spans
      rw [replaceSpans_cons]
      rcases huntouched _ List.mem_cons_self with hbehind | hbefore
      · -- behind the cut
        obtain ⟨x1, rfl, hx1⟩ : ∃ x1, x = kept ++ cut ++ x1 ∧ tail = x1 ++ (found ++ rest) := by
          have hsplit := hseen.split
          rw [← List.append_assoc] at hsplit
          rcases append_cases hsplit with hcase | ⟨d, hne', hfront, _⟩
          · exact hcase
          · exfalso
            have hlen := congrArg List.length hfront
            have hpos := List.length_pos_iff.mpr hne'
            simp only [List.length_append] at hlen hbehind
            omega
        rw [← List.append_assoc, seenBehind_append (by simp [hne]),
          getLast?_append_of_ne_nil hne] at hseen
        have hword : tail = [] ∨ inWord cut.getLast? = inWord marker.getLast? :=
          hlast.imp_right fun hword => hword.trans inWord_marker.symm
        obtain ⟨x2, rest2, hseen2⟩ := ih (inWord_of_cut hword hseen) (by
          intro span hspan
          have hside := huntouched.tail span hspan
          simp only [List.length_append] at hside ⊢
          omega)
        refine ⟨kept ++ marker ++ x2, rest2, ?_⟩
        rw [← List.append_assoc, seenBehind_append (by simp [marker_ne_nil]),
          getLast?_append_of_ne_nil marker_ne_nil]
        exact hseen2
      · -- before the cut
        obtain ⟨z, rfl⟩ : ∃ z, kept = x ++ found ++ z := by
          have hsplit := hseen.split.symm
          rw [← List.append_assoc] at hsplit
          rcases append_cases hsplit with ⟨z, hkept, _⟩ | ⟨d, hne', hfront, _⟩
          · exact ⟨z, hkept⟩
          · exfalso
            have hlen := congrArg List.length hfront
            have hpos := List.length_pos_iff.mpr hne'
            simp only [List.length_append] at hlen hbefore
            omega
        refine ⟨x, z ++ (marker ++
          replaceSpans (offset + (x ++ found ++ z).length + cut.length) tail spans), ?_,
          matchAt?_again hseen.seen _⟩
        rw [List.append_assoc, List.append_assoc]

/-!
## What both leave
-/

/-- The second pass leaves the bytes between the two offsets alone. It looks at a text only when
that holds a backslash. -/
def Spared (plain : Bytes) (start stop : Nat) : Prop :=
  plain.contains 0x5C = true -> Untouched (Decoded.spans plain) start stop

theorem seenAt_sanitize {s found : Bytes} :
    (∃ x rest, SeenAt (sanitize s) x found rest) ↔
      ∃ x rest, SeenAt (replacePatterns s) x found rest ∧
        Spared (replacePatterns s) x.length (x.length + found.length) := by
  unfold sanitize Spared
  dsimp only
  generalize replacePatterns s = plain
  have hfits := fits_spans plain
  split
  · rename_i hslash
    constructor
    · rintro ⟨x, rest, hseen⟩
      obtain ⟨x', rest', hseen', huntouched⟩ :=
        seen_before_cuts hfits (seenBehind_none.mpr hseen)
      rw [Nat.zero_add] at huntouched
      exact ⟨x', rest', seenBehind_none.mp hseen', fun _ => huntouched⟩
    · rintro ⟨x, rest, hseen, hspared⟩
      obtain ⟨x', rest', hseen'⟩ := seen_behind_cuts hfits (seenBehind_none.mpr hseen) (by
        rw [Nat.zero_add]
        exact hspared hslash)
      exact ⟨x', rest', seenBehind_none.mp hseen'⟩
  · rename_i hslash
    constructor
    · rintro ⟨x, rest, hseen⟩
      exact ⟨x, rest, hseen, fun h => absurd h hslash⟩
    · rintro ⟨x, rest, hseen, _⟩
      exact ⟨x, rest, hseen⟩

theorem replacePatterns_eq_self_iff (s : Bytes) : replacePatterns s = s ↔ Clean s := by
  rcases replaceBehind_cases none s with ⟨hsame, hclean⟩ | ⟨z, rest, y, rfl, hy, hfound⟩
  · constructor
    · intro _ x y hxy
      have hnone := hclean x y hxy
      rw [Option.or_none] at hnone
      exact hnone
    · intro _
      exact hsame
  · obtain ⟨x, hx⟩ := Option.isSome_iff_exists.mp hfound
    constructor
    · intro hself
      have hrest := List.append_cancel_left (hy.symm.trans hself)
      rw [← hrest, matchAt?_marker] at hx
      cases hx
    · intro hclean
      rw [Option.or_none, hclean z rest rfl] at hx
      cases hx

/-- What can be seen in a sanitized text is what a cut laid bare and the second pass left alone.
So the text is clean exactly when there is no such thing, and then sanitizing finds no plain
pattern in it any more. -/
theorem clean_sanitize_iff (s : Bytes) :
    (∀ found, (∃ x rest, SeenAt (sanitize s) x found rest) ↔
      ∃ front cut after, LaidBare s front cut found after ∧
        Spared (replacePatterns s) (replacePatterns (front ++ cut)).length
          ((replacePatterns (front ++ cut)).length + found.length)) ∧
    (Clean (sanitize s) ↔
      ¬ ∃ front cut found after, LaidBare s front cut found after ∧
        Spared (replacePatterns s) (replacePatterns (front ++ cut)).length
          ((replacePatterns (front ++ cut)).length + found.length)) ∧
    (replacePatterns (sanitize s) = sanitize s ↔ Clean (sanitize s)) := by
  have hseen : ∀ found, (∃ x rest, SeenAt (sanitize s) x found rest) ↔
      ∃ front cut after, LaidBare s front cut found after ∧
        Spared (replacePatterns s) (replacePatterns (front ++ cut)).length
          ((replacePatterns (front ++ cut)).length + found.length) := by
    intro found
    rw [seenAt_sanitize]
    constructor
    · rintro ⟨x, rest, hseen, hspared⟩
      obtain ⟨front, cut, after, hbare, rfl⟩ := laidBare_of_seenAt hseen
      exact ⟨front, cut, after, hbare, hspared⟩
    · rintro ⟨front, cut, after, hbare, hspared⟩
      obtain ⟨rest, hseen⟩ := seenAt_of_laidBare hbare
      exact ⟨_, rest, hseen, hspared⟩
  refine ⟨hseen, ?_, replacePatterns_eq_self_iff _⟩
  rw [clean_iff, not_congr]
  constructor
  · rintro ⟨x, found, rest, h⟩
    obtain ⟨front, cut, after, hbare⟩ := (hseen found).mp ⟨x, rest, h⟩
    exact ⟨front, cut, found, after, hbare⟩
  · rintro ⟨front, cut, found, after, h⟩
    obtain ⟨x, rest, hx⟩ := (hseen found).mpr ⟨front, cut, after, h⟩
    exact ⟨x, found, rest, hx⟩

example : sanitize (ascii "url(data:text/htmlexpression(1)") =
    ascii "/* [sanitized] */expression(1)" := by
  decide +kernel

end Sanitize
end StyleTrim
