import StyleTrim.Proofs.Sanitize.Spans
import StyleTrim.Proofs.Token.Terminated

/-!
# Sanitizing piece by piece

A text that is put together from pieces, each of which ends with a semicolon or a closing brace, is
sanitized piece by piece. No plain pattern goes past such a mark. Nor does a dangerous run of
tokens, if what the first pass left of a piece still ends with a token of its own.
-/

namespace StyleTrim

def IsTerminator (c : UInt8) : Prop :=
  c = 0x3B ∨ c = 0x7D

namespace Sanitize

open Pattern

variable {c : UInt8}

/-!
## The first pass
-/

theorem foreign_of_terminator (hc : IsTerminator c) : IsForeign c := by
  rcases hc with rfl | rfl <;> decide

theorem matchAt?_terminated (hc : IsTerminator c) {before : Option UInt8} {x y found rest : Bytes}
    (h : matchAt? before (x ++ c :: y) = some (found, rest)) :
    ∃ x', x = found ++ x' ∧
      ∀ z, matchAt? before (x ++ c :: z) = some (found, x' ++ c :: z) := by
  have hforeign := not_mem_matchAt? (foreign_of_terminator hc) h
  rcases List.append_eq_append_iff.mp (matchAt?_append h) with ⟨x', rfl, -⟩ | ⟨a, rfl, ha⟩
  · refine ⟨x', rfl, fun z => ?_⟩
    rw [List.append_assoc]
    exact matchAt?_again h _
  · rcases List.cons_eq_append_iff.mp ha with ⟨rfl, -⟩ | ⟨a, rfl, -⟩
    · refine ⟨[], by simp, fun z => ?_⟩
      rw [List.append_nil] at h ⊢
      exact matchAt?_again h _
    · exact absurd (by simp) hforeign

theorem replaceBehind_terminator (hc : IsTerminator c) (y : Bytes) :
    replaceBehind (some c) y = replaceBehind none y := by
  have hword : inWord (some c) = inWord none := by
    rcases hc with rfl | rfl <;> decide
  have hsame := matchAt?_of_inWord hword y
  cases hmatch : matchAt? none y with
  | some cut => rw [replaceBehind_cut (hsame.trans hmatch), replaceBehind_cut hmatch]
  | none =>
      cases y with
      | nil => rw [replaceBehind_nil, replaceBehind_nil]
      | cons b y => rw [replaceBehind_keep (hsame.trans hmatch), replaceBehind_keep hmatch]

theorem replaceBehind_append (hc : IsTerminator c) (before : Option UInt8) (x y : Bytes) :
    replaceBehind before (x ++ c :: y) =
      replaceBehind before (x ++ [c]) ++ replaceBehind none y := by
  induction hlength : x.length using Nat.strongRecOn generalizing before x with
  | ind n ih =>
    cases hmatch : matchAt? before (x ++ c :: y) with
    | some cut =>
        rcases cut with ⟨found, rest⟩
        rcases matchAt?_terminated hc hmatch with ⟨x', rfl, hagain⟩
        have hpos := List.length_pos_iff.mpr (matchAt?_ne_nil hmatch)
        have hlt : x'.length < n := by
          rw [← hlength, List.length_append]
          omega
        rw [replaceBehind_cut (hagain y), replaceBehind_cut (hagain []), ih x'.length hlt _ _ rfl,
          List.append_assoc]
    | none =>
        have hnone : matchAt? before (x ++ [c]) = none := by
          cases hshort : matchAt? before (x ++ [c]) with
          | none => rfl
          | some cut =>
              rcases matchAt?_terminated hc hshort with ⟨x', -, hagain⟩
              rw [hagain y] at hmatch
              cases hmatch
        cases x with
        | nil =>
            rw [List.nil_append] at hmatch hnone ⊢
            rw [replaceBehind_keep hmatch, List.nil_append, replaceBehind_keep hnone,
              replaceBehind_nil, replaceBehind_terminator hc]
            rfl
        | cons b x =>
            rw [List.cons_append] at hmatch hnone ⊢
            rw [replaceBehind_keep hmatch, List.cons_append, replaceBehind_keep hnone,
              ih x.length (by simp [← hlength]) _ _ rfl]
            rfl

theorem replacePatterns_append (hc : IsTerminator c) (x y : Bytes) :
    replacePatterns (x ++ c :: y) = replacePatterns (x ++ [c]) ++ replacePatterns y :=
  replaceBehind_append hc none x y

/-!
## The second pass
-/

end Sanitize

def Span.moved (n : Nat) (span : Span) : Span :=
  ⟨span.start + n, span.stop + n⟩

namespace Decoded

open Token

theorem colonStop?_append {us : List Token} {t : Token} (hlast : us.getLast? = some t)
    (ht : t.isTerminator = true) (vs : List Token) : colonStop? (us ++ vs) = colonStop? us := by
  induction us with
  | nil => cases hlast
  | cons u us ih =>
      rw [List.cons_append, colonStop?, colonStop?]
      cases us with
      | nil =>
          obtain rfl : u = t := by simpa using hlast
          have hspace : u.kind ≠ .whitespace := kind_ne_of_isTerminator ht (by decide)
          rw [if_neg hspace, if_neg hspace]
      | cons v us => rw [ih (by simpa using hlast)]

theorem stopAt?_append {us : List Token} {t : Token} (hlast : us.getLast? = some t)
    (ht : t.isTerminator = true) (before : List Token) (u : Token) (vs : List Token) :
    stopAt? before u (us ++ vs) = stopAt? before u us := by
  unfold stopAt?
  rw [colonStop?_append hlast ht]

theorem stopAt?_terminator {t : Token} (ht : t.isTerminator = true) (before after : List Token) :
    stopAt? before t after = none := by
  rcases kind_of_isTerminator ht with hkind | hkind <;> simp [stopAt?, hkind]

theorem collect_append {us : List Token} {t : Token} (hlast : us.getLast? = some t)
    (ht : t.isTerminator = true) (before vs : List Token) :
    collect before (us ++ vs) [] =
      collect before us [] ++ collect (us.reverse ++ before) vs [] := by
  induction us generalizing before with
  | nil => cases hlast
  | cons u us ih =>
      cases us with
      | nil =>
          obtain rfl : u = t := by simpa using hlast
          rw [List.cons_append, Sanitize.collect_keep (stopAt?_terminator ht _ _),
            Sanitize.collect_keep (stopAt?_terminator ht _ _)]
          rfl
      | cons v us =>
          have hlast' : (v :: us).getLast? = some t := by simpa using hlast
          have hstop := stopAt?_append hlast' ht before u vs
          rw [List.cons_append]
          cases hcut : stopAt? before u (v :: us) with
          | none =>
              rw [Sanitize.collect_keep (hstop.trans hcut), Sanitize.collect_keep hcut,
                ih hlast' (u :: before)]
              simp
          | some stop =>
              rw [Sanitize.collect_cut (hstop.trans hcut), Sanitize.collect_cut hcut,
                ih hlast' (u :: before)]
              simp

theorem lastSignificant_terminator {us : List Token} {t : Token} (hlast : us.getLast? = some t)
    (ht : t.isTerminator = true) : lastSignificant us.reverse = some t := by
  rcases List.getLast?_eq_some_iff.mp hlast with ⟨us, rfl⟩
  have hspace : t.kind ≠ .whitespace := kind_ne_of_isTerminator ht (by decide)
  rw [List.reverse_append, List.reverse_singleton, List.singleton_append, lastSignificant,
    if_neg hspace]

theorem lastSignificant_append (us before : List Token) :
    lastSignificant (us ++ before) = (lastSignificant us).or (lastSignificant before) := by
  induction us with
  | nil => rfl
  | cons u us ih =>
      rw [List.cons_append, lastSignificant, lastSignificant]
      split
      · exact ih
      · rfl

theorem isDangerousString_terminator {t : Token} (ht : t.isTerminator = true)
    (previous : Option Token) (value : Bytes) :
    isDangerousString (previous.or (some t)) value = isDangerousString previous value := by
  cases previous with
  | some p => rfl
  | none =>
      have hurl : t.kind ≠ .function := kind_ne_of_isTerminator ht (by decide)
      have himport : t.kind ≠ .atKeyword := kind_ne_of_isTerminator ht (by decide)
      simp [isDangerousString, hurl, himport]

theorem collect_behind {before : List Token} {t : Token} (hlast : lastSignificant before = some t)
    (ht : t.isTerminator = true) (us vs : List Token) :
    collect (us ++ before) vs [] = collect us vs [] := by
  induction vs generalizing us with
  | nil => rfl
  | cons v vs ih =>
      have hstop : stopAt? (us ++ before) v vs = stopAt? us v vs := by
        unfold stopAt?
        rw [lastSignificant_append, hlast, isDangerousString_terminator ht]
      have hnext := ih (v :: us)
      rw [List.cons_append] at hnext
      cases hcut : stopAt? us v vs with
      | none =>
          rw [Sanitize.collect_keep (hstop.trans hcut), Sanitize.collect_keep hcut, hnext]
      | some stop =>
          rw [Sanitize.collect_cut (hstop.trans hcut), Sanitize.collect_cut hcut, hnext]

variable (n : Nat)

theorem moved_stop (t : Token) : (t.moved n).stop = t.stop + n :=
  Nat.add_right_comm _ _ _

theorem colonStop?_moved (ts : List Token) :
    colonStop? (ts.map (moved n)) = (colonStop? ts).map (· + n) := by
  induction ts with
  | nil => rfl
  | cons t ts ih =>
      rw [List.map_cons, colonStop?, colonStop?, moved_kind, ih, moved_stop]
      split
      · rfl
      · split <;> rfl

theorem lastSignificant_moved (ts : List Token) :
    lastSignificant (ts.map (moved n)) = (lastSignificant ts).map (moved n) := by
  induction ts with
  | nil => rfl
  | cons t ts ih =>
      rw [List.map_cons, lastSignificant, lastSignificant, moved_kind, ih]
      split <;> rfl

theorem isDangerousString_moved (previous : Option Token) (value : Bytes) :
    isDangerousString (previous.map (moved n)) value = isDangerousString previous value := by
  cases previous <;> rfl

theorem stopAt?_moved (before : List Token) (t : Token) (after : List Token) :
    stopAt? (before.map (moved n)) (t.moved n) (after.map (moved n)) =
      (stopAt? before t after).map (· + n) := by
  unfold stopAt?
  rw [lastSignificant_moved, isDangerousString_moved, colonStop?_moved, moved_kind, moved_value,
    moved_stop]
  cases t.kind <;> simp only [apply_ite (Option.map (· + n)), Option.map_some, Option.map_none]

theorem collect_moved (before ts : List Token) :
    collect (before.map (moved n)) (ts.map (moved n)) [] =
      (collect before ts []).map (Span.moved n) := by
  induction ts generalizing before with
  | nil => rfl
  | cons t ts ih =>
      have hnext := ih (t :: before)
      have hstop := stopAt?_moved n before t ts
      rw [List.map_cons] at hnext ⊢
      cases hcut : stopAt? before t ts with
      | none =>
          rw [hcut] at hstop
          rw [Sanitize.collect_keep hstop, Sanitize.collect_keep hcut, hnext]
      | some stop =>
          rw [hcut] at hstop
          rw [Sanitize.collect_cut hstop, Sanitize.collect_cut hcut, hnext]
          rfl

theorem spans_append {x : Bytes} (h : isTerminated x = true) (y : Bytes) :
    spans (x ++ y) = spans x ++ (spans y).map (Span.moved x.length) := by
  have happend : ∀ y, spans (x ++ y) =
      collect [] (body (tokenize x)) [] ++ (spans y).map (Span.moved x.length) := by
    intro y
    rcases exists_terminator h with ⟨t, hlast, ht, -⟩
    have hbehind := collect_behind (lastSignificant_terminator hlast ht) ht []
      (streamFrom x.length y)
    rw [List.nil_append] at hbehind
    rw [spans, tokenize_append h, collect_append hlast ht, List.append_nil, hbehind,
      streamFrom_eq_map, spans, ← collect_moved]
    rfl
  have halone := happend []
  have hnil : spans [] = [] := by decide +kernel
  rw [List.append_nil, hnil, List.map_nil, List.append_nil] at halone
  rw [happend, halone]

end Decoded

namespace Sanitize

theorem replaceSpans_moved (n copied : Nat) (s : Bytes) (spans : List Span) :
    replaceSpans (copied + n) s (spans.map (Span.moved n)) = replaceSpans copied s spans := by
  induction spans generalizing copied s with
  | nil => rfl
  | cons span spans ih =>
      simp only [List.map_cons, replaceSpans, Span.moved, Nat.add_sub_add_right, ih]

theorem replaceSpans_append {offset : Nat} {x : Bytes} {spans : List Span}
    (h : Fits offset x spans) (y : Bytes) (more : List Span) :
    replaceSpans offset (x ++ y) (spans ++ more.map (Span.moved (offset + x.length))) =
      replaceSpans offset x spans ++ replaceSpans 0 y more := by
  induction h with
  | nil =>
      rename_i offset x
      cases more with
      | nil => rfl
      | cons span more =>
          have hstart : span.start + (offset + x.length) - offset = x.length + span.start := by
            omega
          have hstop : span.stop + (offset + x.length) - offset = x.length + span.stop := by
            omega
          have hrest := replaceSpans_moved (offset + x.length) span.stop (y.drop span.stop) more
          simp only [List.nil_append, List.map_cons, replaceSpans, Span.moved, Nat.sub_zero]
          rw [hstart, hstop, List.take_length_add_append, List.drop_length_add_append, hrest]
          simp
  | cons hne hlast htail ih =>
      rename_i offset kept cut rest spans
      have hlength : offset + (kept ++ (cut ++ rest)).length =
          offset + kept.length + cut.length + rest.length := by
        simp [Nat.add_assoc]
      rw [hlength, List.append_assoc, List.append_assoc, List.cons_append, replaceSpans_cons,
        replaceSpans_cons, ih]
      simp

/-- What the first pass leaves of the text, or both of them. -/
def runPasses (both : Bool) (s : Bytes) : Bytes :=
  let plain := replacePatterns s
  if both then replaceSpans 0 plain (Decoded.spans plain) else plain

theorem sanitize_eq_runPasses (s : Bytes) : sanitize s = runPasses (s.contains 0x5C) s := by
  rw [sanitize, runPasses, contains_replacePatterns]

theorem runPasses_append {both : Bool} {c : UInt8} (hc : IsTerminator c) {x : Bytes}
    (h : both = true -> Token.isTerminated (replacePatterns (x ++ [c])) = true) (y : Bytes) :
    runPasses both (x ++ [c] ++ y) = runPasses both (x ++ [c]) ++ runPasses both y := by
  have hplain := replacePatterns_append hc x y
  rw [List.append_assoc, List.singleton_append]
  cases both with
  | false => exact hplain
  | true =>
      simp only [runPasses, if_true]
      have happend := replaceSpans_append (fits_spans (replacePatterns (x ++ [c])))
        (replacePatterns y) (Decoded.spans (replacePatterns y))
      rw [hplain, Decoded.spans_append (h rfl)]
      rwa [Nat.zero_add] at happend

end Sanitize
end StyleTrim
