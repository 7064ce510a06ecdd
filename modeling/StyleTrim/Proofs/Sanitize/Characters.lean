import StyleTrim.Proofs.Sanitize.Spans
import StyleTrim.Proofs.Token.Characters

/-!
# Cuts between characters

What is cut out of a text is made of whole characters. A plain pattern takes only ASCII, and a
dangerous construct goes from the beginning of one token to the end of one. So the sanitized form of
a valid text is valid.
-/

namespace StyleTrim
namespace Sanitize

open Pattern Utf8

theorem isValid_marker : IsValid marker :=
  isValid_of_ascii (by decide +kernel)

/-!
## Plain patterns
-/

def isAsciiPart : Part -> Bool
  | .word w => w.all (· < 0x80)
  | _ => true

theorem isAsciiPart_dangerous :
    ∀ p ∈ dangerous, (Part.word p.opening :: p.parts).all isAsciiPart = true := by
  decide +kernel

theorem lacks_of_high {c : UInt8} (hc : 0x80 ≤ c) {part : Part} (h : isAsciiPart part = true) :
    lacks c part = true := by
  have hnat : 128 ≤ c.toNat := UInt8.le_iff_toNat_le.mp hc
  have hblank : Byte.isBlank c = false := by
    simp only [Byte.isBlank, Bool.or_eq_false_iff, beq_eq_false_iff_ne, Bool.and_eq_false_iff,
      decide_eq_false_iff_not, UInt8.le_iff_toNat_le, ← UInt8.toNat_inj, ne_eq,
      UInt8.reduceToNat]
    omega
  cases part with
  | word w =>
      have hlower : Byte.toLower c = c := by
        apply if_neg
        simp only [Byte.isUpper, Bool.and_eq_true, decide_eq_true_eq, UInt8.le_iff_toNat_le,
          UInt8.reduceToNat]
        omega
      simp only [lacks, hlower, Bool.not_eq_true', List.contains_eq_mem, decide_eq_false_iff_not]
      intro hmem
      have hlow := List.all_eq_true.mp h c hmem
      exact absurd hc (UInt8.not_le.mpr (of_decide_eq_true hlow))
  | blank => simp [lacks, hblank]
  | blanks => simp [lacks, hblank]
  | quote =>
      have hquote : Byte.isQuote c = false := by
        rw [Bool.eq_false_iff]
        intro hquote
        exact absurd hc (UInt8.not_le.mpr (Byte.ascii_of_isQuote hquote))
      simp [lacks, hquote]

theorem ascii_of_matchAt? {before : Option UInt8} {s found rest : Bytes}
    (h : matchAt? before s = some (found, rest)) : ∀ b ∈ found, b < 0x80 := by
  intro b hb
  rw [← UInt8.not_le]
  intro hhigh
  refine not_mem_matchAt? (c := b) ?_ h hb
  intro p hp
  rw [List.all_eq_true]
  intro part hpart
  exact lacks_of_high hhigh (List.all_eq_true.mp (isAsciiPart_dangerous p hp) part hpart)

theorem isValid_replaceBehind {front s : Bytes} (h : IsValid (front ++ s))
    (before : Option UInt8) : IsValid (front ++ replaceBehind before s) := by
  induction hlength : s.length using Nat.strongRecOn generalizing front s before with
  | ind length ih =>
    cases s with
    | nil =>
        rw [replaceBehind_nil]
        exact h
    | cons b tail =>
        cases hmatch : matchAt? before (b :: tail) with
        | none =>
            rw [replaceBehind_keep hmatch, List.append_cons]
            rw [List.append_cons] at h
            exact ih tail.length (by simp [← hlength]) h (some b) rfl
        | some found =>
            rcases found with ⟨found, rest⟩
            have hascii := ascii_of_matchAt? hmatch
            have hrest := matchAt?_length hmatch
            rw [replaceBehind_cut hmatch]
            rw [← matchAt?_append hmatch] at h
            cases found with
            | nil => exact absurd rfl (matchAt?_ne_nil hmatch)
            | cons c found =>
                have hhead := head_of_ascii (hascii c List.mem_cons_self) (found ++ rest)
                rcases h.split hhead with ⟨hfront, hbehind⟩
                have hleft : IsValid ([] ++ rest) := hbehind.behind hascii
                have htail := ih rest.length (hlength ▸ hrest) hleft (c :: found).getLast? rfl
                exact hfront.append (isValid_marker.append htail)

theorem isValid_replacePatterns {s : Bytes} (h : IsValid ([] ++ s)) : IsValid (replacePatterns s) :=
  isValid_replaceBehind h none

/-!
## Tokens
-/

theorem exists_of_colonStop? {ts : List Token} {stop : Nat}
    (h : Decoded.colonStop? ts = some stop) :
    ∃ u ∈ ts, stop = u.stop := by
  induction ts with
  | nil => cases h
  | cons t ts ih =>
      rw [Decoded.colonStop?] at h
      split at h
      · rcases ih h with ⟨u, hu, hstop⟩
        exact ⟨u, List.mem_cons_of_mem t hu, hstop⟩
      · split at h <;> cases h
        exact ⟨t, List.mem_cons_self, rfl⟩

theorem exists_of_collect {before ts : List Token} {span : Span}
    (h : span ∈ Decoded.collect before ts []) :
    ∃ t ∈ ts, ∃ u ∈ ts, span = ⟨t.offset, u.stop⟩ := by
  induction ts generalizing before with
  | nil => cases h
  | cons t ts ih =>
      have hbehind : span ∈ Decoded.collect (t :: before) ts [] ->
          ∃ v ∈ t :: ts, ∃ u ∈ t :: ts, span = ⟨v.offset, u.stop⟩ := by
        intro hspan
        rcases ih hspan with ⟨v, hv, u, hu, heq⟩
        exact ⟨v, List.mem_cons_of_mem t hv, u, List.mem_cons_of_mem t hu, heq⟩
      cases hstop : Decoded.stopAt? before t ts with
      | none =>
          rw [collect_keep hstop] at h
          exact hbehind h
      | some stop =>
          rw [collect_cut hstop] at h
          rcases List.mem_cons.mp h with rfl | hspan
          · refine ⟨t, List.mem_cons_self, ?_⟩
            rcases stopAt?_cases hstop with ⟨rfl, _⟩ | hcolon
            · exact ⟨t, List.mem_cons_self, rfl⟩
            · rcases exists_of_colonStop? hcolon with ⟨u, hu, rfl⟩
              exact ⟨u, List.mem_cons_of_mem t hu, rfl⟩
          · exact hbehind hspan

theorem isValid_replaceSpans {text : Bytes} {offset : Nat} {s : Bytes} {spans : List Span}
    (h : Fits offset s spans) (htext : text.drop offset = s) (hvalid : IsValid s)
    (hspans : ∀ span ∈ spans, IsBoundary text span.start ∧ IsBoundary text span.stop) :
    IsValid (replaceSpans offset s spans) := by
  induction h with
  | nil => exact hvalid
  | cons hne hlast htail ih =>
      rename_i offset kept cut rest spans
      rw [List.forall_mem_cons] at hspans
      rcases hspans with ⟨⟨hstart, hstop⟩, hspans⟩
      have hcut : text.drop (offset + kept.length) = cut ++ rest := by
        rw [← List.drop_drop, htext, List.drop_left]
      have hrest : text.drop (offset + kept.length + cut.length) = rest := by
        rw [← List.drop_drop, hcut, List.drop_left]
      rw [IsBoundary, hcut] at hstart
      rw [IsBoundary, hrest] at hstop
      rcases hvalid.split hstart with ⟨hkept, hbehind⟩
      rw [replaceSpans_cons]
      exact hkept.append (isValid_marker.append (ih hrest (hbehind.split hstop).2 hspans))

theorem isValid_replaceSpans_spans {s : Bytes} (h : IsValid s) :
    IsValid (replaceSpans 0 s (Decoded.spans s)) := by
  refine isValid_replaceSpans (fits_spans s) List.drop_zero h ?_
  intro span hspan
  rcases exists_of_collect hspan with ⟨t, ht, u, hu, rfl⟩
  exact ⟨(Token.isWhole_tokenize h t ht).start, (Token.isWhole_tokenize h u hu).stop⟩

end Sanitize

open Utf8 in
theorem isValid_sanitize {s : Bytes} (h : IsValid s) : IsValid (sanitize s) := by
  have hplain := Sanitize.isValid_replacePatterns h
  unfold sanitize
  dsimp only
  split
  · exact Sanitize.isValid_replaceSpans_spans hplain
  · exact hplain

end StyleTrim
