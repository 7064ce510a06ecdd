import StyleTrim.Proofs.Sanitize.Replace
import StyleTrim.Proofs.Token.Layout

/-!
# The pass over tokens

The spans that are cut out follow one another in the text, and each ends in a mark that is in no
word, unless the text ends with it. So a cut of this pass lays nothing bare: what can be seen behind
it could be seen before.
-/

namespace StyleTrim
namespace Sanitize

open Pattern Lexeme

/-- The spans lie one behind the other in the text `s` that begins at the offset. -/
inductive Fits : Nat -> Bytes -> List Span -> Prop where
  | nil {offset : Nat} {s : Bytes} : Fits offset s []
  | cons {offset : Nat} {kept cut rest : Bytes} {spans : List Span} (hne : cut ≠ [])
      (hlast : rest = [] ∨ inWord cut.getLast? = false)
      (htail : Fits (offset + kept.length + cut.length) rest spans) :
      Fits offset (kept ++ (cut ++ rest))
        (⟨offset + kept.length, offset + kept.length + cut.length⟩ :: spans)

theorem Fits.place {offset : Nat} {s : Bytes} {spans : List Span} (h : Fits offset s spans) :
    ∀ p ∈ spans, offset ≤ p.start ∧ p.start < p.stop ∧ p.stop ≤ offset + s.length := by
  induction h with
  | nil =>
      intro p hp
      cases hp
  | cons hne hlast htail ih =>
      rename_i offset kept cut rest spans
      have hpos := List.length_pos_iff.mpr hne
      have hlength : (kept ++ (cut ++ rest)).length = kept.length + cut.length + rest.length := by
        simp [Nat.add_assoc]
      rw [List.forall_mem_cons, hlength]
      constructor
      · dsimp only
        omega
      · intro p hp
        have htailPlace := ih p hp
        omega

theorem Fits.start_le {offset : Nat} {s : Bytes} {spans : List Span} (h : Fits offset s spans) :
    ∀ span ∈ spans, offset ≤ span.start := by
  intro span hspan
  exact (h.place span hspan).1

theorem Fits.behind {offset : Nat} {x s : Bytes} {spans : List Span}
    (h : Fits (offset + x.length) s spans) : Fits offset (x ++ s) spans := by
  cases h with
  | nil => exact .nil
  | cons hne hlast htail =>
      rename_i kept cut rest spans
      have hcons := @Fits.cons offset (x ++ kept) _ _ _ hne hlast
        (by simpa [Nat.add_assoc] using htail)
      simpa [Nat.add_assoc] using hcons

theorem replaceSpans_cons (offset : Nat) (kept cut tail : Bytes) (spans : List Span) :
    replaceSpans offset (kept ++ (cut ++ tail))
        (⟨offset + kept.length, offset + kept.length + cut.length⟩ :: spans) =
      kept ++ (marker ++ replaceSpans (offset + kept.length + cut.length) tail spans) := by
  have hdrop : (kept ++ (cut ++ tail)).drop (kept.length + cut.length) = tail := by
    rw [← List.append_assoc, ← List.length_append, List.drop_left]
  have hlen : offset + kept.length + cut.length - offset = kept.length + cut.length := by
    omega
  simp only [replaceSpans, Nat.add_sub_cancel_left, List.take_left, hlen, hdrop]

theorem replaceSpans_behind {offset : Nat} {x s : Bytes} {spans : List Span}
    (h : Fits (offset + x.length) s spans) :
    replaceSpans offset (x ++ s) spans = x ++ replaceSpans (offset + x.length) s spans := by
  cases h with
  | nil => rfl
  | cons hne hlast htail =>
      rename_i kept cut rest spans
      have hcut := replaceSpans_cons offset (x ++ kept) cut rest spans
      rw [List.length_append, ← Nat.add_assoc, List.append_assoc] at hcut
      rw [hcut, replaceSpans_cons, List.append_assoc]

/-!
## The spans of dangerous tokens
-/

theorem collect_taken (before ts : List Token) (taken : List Span) :
    Decoded.collect before ts taken = taken.reverse ++ Decoded.collect before ts [] := by
  induction ts generalizing before taken with
  | nil => simp [Decoded.collect]
  | cons t ts ih =>
      unfold Decoded.collect
      split
      · rename_i stop _
        rw [ih (t :: before) (⟨t.offset, stop⟩ :: taken), ih (t :: before) [⟨t.offset, stop⟩]]
        simp
      · exact ih (t :: before) taken

theorem stopAt?_cases {before after : List Token} {t : Token} {stop : Nat}
    (h : Decoded.stopAt? before t after = some stop) :
    (stop = t.stop ∧ (t.kind = .url ∨ t.kind = .string ∨ t.kind = .function)) ∨
      Decoded.colonStop? after = some stop := by
  unfold Decoded.stopAt? at h
  split at h
  · rename_i hkind
    split at h <;> cases h
    exact Or.inl ⟨rfl, Or.inl hkind⟩
  · rename_i hkind
    split at h <;> cases h
    exact Or.inl ⟨rfl, Or.inr (Or.inl hkind)⟩
  · rename_i hkind
    split at h <;> cases h
    exact Or.inl ⟨rfl, Or.inr (Or.inr hkind)⟩
  · split at h
    · exact Or.inr h
    · cases h
  · cases h

theorem last_of_shape {l : Lexeme} {s : Bytes} (h : Shape l s)
    (hkind : l.kind = .url ∨ l.kind = .string ∨ l.kind = .function) :
    s = [] ∨ inWord l.raw.getLast? = false := by
  cases h with
  | string hquote hscan =>
      rename_i q body v
      right
      have hlast : (q :: (body ++ [q])).getLast? = some q := by
        rw [← List.cons_append, List.getLast?_concat]
      rw [hlast]
      rcases Byte.isQuote_cases hquote with rfl | rfl <;> decide
  | openString hquote hscan => exact Or.inl rfl
  | function hstart hscan hargument =>
      right
      rw [List.getLast?_concat]
      decide
  | url hopen hscan hgap =>
      rename_i opening body v gap
      right
      have hlast : (opening ++ (body ++ (gap ++ [0x29]))).getLast? = some 0x29 := by
        simp [← List.append_assoc]
      rw [hlast]
      decide
  | openUrl hopen hscan hgap => exact Or.inl rfl
  | punctuation hmark =>
      rcases hkind with hkind | hkind | hkind <;> exact absurd hkind (ne_of_punctuation hmark rfl)
  | _ => simp [verbatim, delim] at hkind

theorem collect_keep {before ts : List Token} {t : Token}
    (h : Decoded.stopAt? before t ts = none) :
    Decoded.collect before (t :: ts) [] = Decoded.collect (t :: before) ts [] := by
  rw [Decoded.collect, h]

theorem collect_cut {before ts : List Token} {t : Token} {stop : Nat}
    (h : Decoded.stopAt? before t ts = some stop) :
    Decoded.collect before (t :: ts) [] =
      ⟨t.offset, stop⟩ :: Decoded.collect (t :: before) ts [] := by
  rw [Decoded.collect, h]
  exact collect_taken _ _ _

theorem collect_passes {mid : List Token}
    (h : ∀ m ∈ mid, m.kind = .whitespace ∨ m.kind = .colon) (before ts : List Token) :
    Decoded.collect before (mid ++ ts) [] = Decoded.collect (mid.reverse ++ before) ts [] := by
  induction mid generalizing before with
  | nil => rfl
  | cons m mid ih =>
      have hnone : Decoded.stopAt? before m (mid ++ ts) = none := by
        rcases h m List.mem_cons_self with hkind | hkind <;> simp [Decoded.stopAt?, hkind]
      rw [List.cons_append, collect_keep hnone, ih fun n hn => h n (List.mem_cons_of_mem m hn)]
      simp

/-- The text begins with the tokens `mid`, white space and then a colon, which end at the offset
`stop`. Behind them stand the text `rest` and the tokens `ts`. -/
structure ColonFirst (offset : Nat) (s : Bytes) (mid : List Token) (stop : Nat) (rest : Bytes)
    (ts : List Token) : Prop where
  text : ∃ x, s = x ++ 0x3A :: rest ∧ stop = offset + x.length + 1
  ne_nil : mid ≠ []
  kinds : ∀ m ∈ mid, m.kind = .whitespace ∨ m.kind = .colon
  inside : ∀ m ∈ mid, m.raw ≠ [] ∧ offset ≤ m.offset ∧ m.stop ≤ stop
  laid : Token.Laid stop rest ts

theorem laid_colon {offset : Nat} {s : Bytes} {ts : List Token} (h : Token.Laid offset s ts)
    {stop : Nat} (hstop : Decoded.colonStop? ts = some stop) :
    ∃ mid rest ts', ts = mid ++ ts' ∧ ColonFirst offset s mid stop rest ts' := by
  induction h with
  | ending hgap => cases hstop
  | token hgap hshape htail ih =>
      rename_i offset gap s l ts
      rw [Decoded.colonStop?] at hstop
      split at hstop
      · rename_i hspace
        rcases ih hstop with ⟨mid, rest, ts', rfl, hmid⟩
        rcases hmid.text with ⟨x, rfl, hx⟩
        refine ⟨Token.ofLexeme l (offset + gap.length) (!gap.isEmpty) :: mid, rest, ts', rfl, ?_⟩
        refine ⟨⟨gap ++ (l.raw ++ x), by simp, ?_⟩, List.cons_ne_nil _ _,
          List.forall_mem_cons.mpr ⟨Or.inl hspace, hmid.kinds⟩,
          List.forall_mem_cons.mpr ⟨⟨raw_ne_nil hshape, Nat.le_add_right _ _, ?_⟩, ?_⟩, hmid.laid⟩
        · rw [hx]
          simp [Nat.add_assoc]
        · simp only [Token.stop, Token.ofLexeme]
          omega
        · intro m hm
          rcases hmid.inside m hm with ⟨hne, hle, hlt⟩
          exact ⟨hne, by omega, hlt⟩
      · split at hstop
        · rename_i hcolon
          cases hstop
          have hraw : l.raw = [0x3A] := raw_of_punctuation hshape rfl hcolon
          refine ⟨[Token.ofLexeme l (offset + gap.length) (!gap.isEmpty)], s, ts, rfl, ?_⟩
          refine ⟨⟨gap, by rw [hraw]; rfl, ?_⟩, List.cons_ne_nil _ _,
            List.forall_mem_singleton.mpr (Or.inr hcolon),
            List.forall_mem_singleton.mpr ⟨raw_ne_nil hshape, Nat.le_add_right _ _, Nat.le_refl _⟩,
            htail⟩
          simp [Token.stop, Token.ofLexeme, hraw]
        · cases hstop

theorem fits_collect {offset : Nat} {s : Bytes} {ts : List Token} (h : Token.Laid offset s ts)
    (before : List Token) : Fits offset s (Decoded.collect before ts []) := by
  induction hn : ts.length using Nat.strongRecOn generalizing offset s ts before with
  | ind n ih =>
    cases h with
    | ending hgap => exact .nil
    | token hgap hshape htail =>
        rename_i gap s l ts
        have hstep : ts.length < n := by simp [← hn]
        rw [Decoded.collect]
        cases hstop : Decoded.stopAt? before
            (Token.ofLexeme l (offset + gap.length) (!gap.isEmpty)) ts with
        | none =>
            apply Fits.behind
            apply Fits.behind
            exact ih ts.length hstep htail _ rfl
        | some stop =>
            dsimp only
            rw [collect_taken]
            rcases stopAt?_cases hstop with ⟨rfl, hkind⟩ | hcolon
            · have hfits := ih ts.length hstep htail
                (Token.ofLexeme l (offset + gap.length) (!gap.isEmpty) :: before) rfl
              have hcons := @Fits.cons offset gap _ _ _ (raw_ne_nil hshape)
                (last_of_shape hshape hkind) hfits
              simpa [Token.stop, Token.ofLexeme, Nat.add_assoc] using hcons
            · rcases laid_colon htail hcolon with ⟨mid, rest, ts', rfl, hmid⟩
              rcases hmid.text with ⟨x, rfl, rfl⟩
              have hlength := List.length_pos_iff.mpr hmid.ne_nil
              rw [List.length_append] at hstep
              rw [collect_passes hmid.kinds]
              have hfits := ih ts'.length (by omega) hmid.laid
                (mid.reverse ++ Token.ofLexeme l (offset + gap.length) (!gap.isEmpty) :: before) rfl
              have hlast : inWord (l.raw ++ (x ++ [0x3A])).getLast? = false := by
                rw [← List.append_assoc, List.getLast?_concat]
                decide
              have hcons := @Fits.cons offset gap (l.raw ++ (x ++ [0x3A])) rest _ (by simp)
                (Or.inr hlast)
                (by simpa [Nat.add_assoc] using hfits)
              simpa [Token.ofLexeme, Nat.add_assoc] using hcons

theorem fits_spans (s : Bytes) : Fits 0 s (Decoded.spans s) :=
  fits_collect (Token.laid_tokenize s) []

end Sanitize
end StyleTrim
