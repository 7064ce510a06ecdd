import Mathlib.Data.List.Basic
import StyleTrim.Proofs.Sanitize.Spans

/-!
# What the cuts leave

The spans that are cut out of a text lie apart and in order in it. So the text that is put together
around them never steps back, and it is told byte by byte: the first byte of a span becomes the
marker, its other bytes become nothing, and every byte outside of the spans stays.
-/

namespace StyleTrim
namespace Sanitize

/-- What the byte `b` at the offset `i` becomes. -/
def shown (spans : List Span) (b : UInt8) (i : Nat) : Bytes :=
  if spans.any fun p => p.start == i then marker
  else if spans.any fun p => p.start < i && i < p.stop then []
  else [b]

/-- How far the text is copied or cut behind the spans. -/
def copiedBehind (spans : List Span) : Nat :=
  (spans.getLast?.map Span.stop).getD 0

/-- The text `out` is the text `s` without the spans. -/
structure CutsOut (s : Bytes) (spans : List Span) (out : Bytes) : Prop where
  nonempty : ∀ p ∈ spans, p.start < p.stop
  within : ∀ p ∈ spans, p.stop ≤ s.length
  apart : spans.Pairwise fun p q => p.stop ≤ q.start
  forward : ∀ front p back, spans = front ++ p :: back -> copiedBehind front ≤ p.start
  ending : copiedBehind spans ≤ s.length
  text : out = s.zipIdx.flatMap fun x => shown spans x.1 x.2

variable {offset : Nat} {s : Bytes} {spans : List Span}

/-!
## Where the spans lie
-/

theorem Fits.apart (h : Fits offset s spans) : spans.Pairwise fun p q => p.stop ≤ q.start := by
  induction h with
  | nil => exact List.Pairwise.nil
  | cons hne hlast htail ih =>
      apply List.Pairwise.cons
      · intro q hq
        exact (htail.place q hq).1
      · exact ih

theorem copiedBehind_le {bound : Nat} (h : ∀ p ∈ spans, p.stop ≤ bound) :
    copiedBehind spans ≤ bound := by
  rw [copiedBehind]
  cases hlast : spans.getLast? with
  | none => exact Nat.zero_le bound
  | some p => exact h p (List.mem_of_getLast? hlast)

/-!
## What the bytes become
-/

theorem shown_outside {b : UInt8} {i : Nat} (h : ∀ p ∈ spans, i < p.start ∨ p.stop ≤ i)
    (hne : ∀ p ∈ spans, p.start < p.stop) : shown spans b i = [b] := by
  rw [shown, if_neg, if_neg]
  · simp only [List.any_eq_true, Bool.and_eq_true, decide_eq_true_eq, not_exists, not_and]
    intro p hp hstart
    have houtside := h p hp
    omega
  · simp only [List.any_eq_true, beq_iff_eq, not_exists, not_and]
    intro p hp hstart
    have houtside := h p hp
    have hpos := hne p hp
    omega

theorem shown_first {p : Span} {b : UInt8} : shown (p :: spans) b p.start = marker := by
  simp [shown]

theorem shown_inside {p : Span} {b : UInt8} {i : Nat} (hstart : p.start < i) (hstop : i < p.stop)
    (h : ∀ q ∈ spans, p.stop ≤ q.start) : shown (p :: spans) b i = [] := by
  rw [shown, if_neg, if_pos]
  · simp [hstart, hstop]
  · simp only [List.any_eq_true, beq_iff_eq, not_exists, not_and, List.mem_cons]
    intro q hq hsame
    rcases hq with rfl | hq
    · omega
    · have hle := h q hq
      omega

theorem shown_behind {p : Span} {b : UInt8} {i : Nat} (hne : p.start < p.stop)
    (hstop : p.stop ≤ i) : shown (p :: spans) b i = shown spans b i := by
  have hfirst : (p.start == i) = false := by
    rw [beq_eq_false_iff_ne]
    omega
  have hinside : (decide (p.start < i) && decide (i < p.stop)) = false := by
    rw [Bool.and_eq_false_iff, decide_eq_false_iff_not, decide_eq_false_iff_not]
    omega
  rw [shown, shown, List.any_cons, List.any_cons, hfirst, hinside, Bool.false_or, Bool.false_or]

def shownFrom (offset : Nat) (spans : List Span) (s : Bytes) : Bytes :=
  (s.zipIdx offset).flatMap fun x => shown spans x.1 x.2

theorem shownFrom_append (x y : Bytes) :
    shownFrom offset spans (x ++ y) =
      shownFrom offset spans x ++ shownFrom (offset + x.length) spans y := by
  rw [shownFrom, List.zipIdx_append, List.flatMap_append]
  rfl

theorem shownFrom_outside (h : ∀ p ∈ spans, offset + s.length ≤ p.start ∧ p.start < p.stop) :
    shownFrom offset spans s = s := by
  have hstays : ∀ x ∈ s.zipIdx offset, shown spans x.1 x.2 = [x.1] := by
    intro x hx
    have hlt := List.snd_lt_of_mem_zipIdx hx
    apply shown_outside
    · intro p hp
      have hle := (h p hp).1
      omega
    · intro p hp
      exact (h p hp).2
  rw [shownFrom, List.flatMap_congr hstays, ← List.map_eq_flatMap, List.zipIdx_map_fst]

theorem shownFrom_cut {cut : Bytes} (hne : cut ≠ [])
    (h : ∀ q ∈ spans, offset + cut.length ≤ q.start) :
    shownFrom offset (⟨offset, offset + cut.length⟩ :: spans) cut = marker := by
  cases cut with
  | nil => exact absurd rfl hne
  | cons b cut =>
      have hnothing : ∀ x ∈ cut.zipIdx (offset + 1),
          shown (⟨offset, offset + (b :: cut).length⟩ :: spans) x.1 x.2 = [] := by
        intro x hx
        have hle := List.le_snd_of_mem_zipIdx hx
        have hlt := List.snd_lt_of_mem_zipIdx hx
        apply shown_inside
        · exact hle
        · change x.2 < offset + (cut.length + 1)
          omega
        · exact h
      rw [shownFrom, List.zipIdx_cons, List.flatMap_cons, List.flatMap_eq_nil_iff.mpr hnothing,
        List.append_nil]
      exact shown_first

theorem shownFrom_behind {p : Span} (hne : p.start < p.stop) :
    shownFrom p.stop (p :: spans) s = shownFrom p.stop spans s := by
  apply List.flatMap_congr
  intro x hx
  exact shown_behind hne (List.le_snd_of_mem_zipIdx hx)

theorem Fits.replaceSpans_eq (h : Fits offset s spans) :
    replaceSpans offset s spans = shownFrom offset spans s := by
  induction h with
  | nil =>
      symm
      apply shownFrom_outside
      intro p hp
      cases hp
  | cons hne hlast htail ih =>
      rename_i offset kept cut rest spans
      have hpos := List.length_pos_iff.mpr hne
      have hplace := htail.place
      have hkept : shownFrom offset (⟨offset + kept.length, offset + kept.length + cut.length⟩ ::
          spans) kept = kept := by
        apply shownFrom_outside
        rw [List.forall_mem_cons]
        constructor
        · exact ⟨Nat.le_refl _, Nat.lt_add_of_pos_right hpos⟩
        · intro q hq
          have hq := hplace q hq
          omega
      rw [replaceSpans_cons, ih, shownFrom_append, shownFrom_append, hkept,
        shownFrom_cut hne fun q hq => (hplace q hq).1,
        shownFrom_behind (p := ⟨offset + kept.length, offset + kept.length + cut.length⟩)
          (Nat.lt_add_of_pos_right hpos)]

/-- The dangerous tokens are cut out of a text one behind the other, and nothing else of it is. -/
theorem cutsOut_spans (s : Bytes) :
    CutsOut s (Decoded.spans s) (replaceSpans 0 s (Decoded.spans s)) := by
  have hfits := fits_spans s
  have hwithin : ∀ p ∈ Decoded.spans s, p.stop ≤ s.length := by
    intro p hp
    have hplace := hfits.place p hp
    omega
  constructor
  · intro p hp
    exact (hfits.place p hp).2.1
  · exact hwithin
  · exact hfits.apart
  · intro front p back hsplit
    have happart := hfits.apart
    rw [hsplit, List.pairwise_append] at happart
    apply copiedBehind_le
    intro q hq
    exact happart.2.2 q hq p List.mem_cons_self
  · exact copiedBehind_le hwithin
  · exact hfits.replaceSpans_eq

end Sanitize
end StyleTrim
