import StyleTrim.Proofs.Sanitize.Clean
import StyleTrim.Proofs.Sanitize.Taking
import StyleTrim.Proofs.Sanitize.Tokens
import StyleTrim.Proofs.Token.Unescaped
import StyleTrim.Proofs.Token.Lossless

/-!
# What plain patterns miss

A text without a backslash is only looked at as plain text. Its tokens may show more than that: a
comment can stand where a pattern allows nothing but blanks, the blank that an import needs can be
left out, and a word behind `<!--` passes for the end of a longer one. A word that a cut laid bare
is missed as well. Nothing else is, so no address is ever missed.
-/

namespace StyleTrim
namespace Sanitize

open Pattern Lexeme Token Decoded

/-!
## What the first pass shows
-/

/-- The bytes at the offset were laid bare by a cut, and a cut that did not look behind itself. -/
def LaidBareAt (s : Bytes) (offset : Nat) : Prop :=
  ∃ front cut found after, LaidBare s front cut found after ∧
    offset = (replacePatterns (front ++ cut)).length

theorem laidBareAt_of_take? {s x found rest : Bytes} {p : Pattern} (hmem : p ∈ dangerous)
    (hs : replacePatterns s = x ++ (found ++ rest))
    (htake : p.take? x.getLast? (found ++ rest) = some (found, rest)) :
    p.wholeWord = true ∧ LaidBareAt s x.length := by
  have hseen : SeenAt (replacePatterns s) x found rest :=
    ⟨hs, matchAt?_eq_some.mpr ⟨p, hmem, htake⟩⟩
  rcases laidBare_of_seenAt hseen with ⟨front, cut, after, hbare, hx⟩
  refine ⟨?_, front, cut, found, after, hbare, by rw [hx]⟩
  rcases hbare.matches with ⟨q, hq, hwhole, hword⟩
  have hagain := take?_again hq hword rest
  rcases eq_or_apart pairwise_apart hmem hq with rfl | hapart
  · exact hwhole
  · cases hfree : p.wholeWord with
    | true => rfl
    | false =>
        have hnone : p.take? none (found ++ rest) = some (found, rest) :=
          take?_eq_some.mpr ⟨by rw [hfree, Bool.false_and], (take?_eq_some.mp htake).2⟩
        rcases hapart none (found ++ rest) with h | h
        · rw [hnone] at h
          cases h
        · rw [hagain] at h
          cases h

/-!
## What can stand before a word

A token that ends in a byte of words takes what goes on with the word. Only the mark `<!--` does
not, which ends in a hyphen.
-/

theorem lone_of_inWord {c : UInt8} {s : Bytes} (h : Lone c s) (hword : isWordByte c = true)
    (hnext : ∃ b ∈ s.head?, Byte.isNameStart b = true) : False := by
  rcases hnext with ⟨b, hb, hstart⟩
  rcases List.head?_eq_some_iff.mp hb with ⟨s, rfl⟩
  have hname : startsName (c :: b :: s) = false := h.name
  simp only [isWordByte, Byte.isAlnum, Bool.or_eq_true, beq_iff_eq] at hword
  rcases hword with ((halpha | hdigit) | rfl) | rfl
  · rw [startsName_of_isNameStart (by simp [Byte.isNameStart, halpha])] at hname
    cases hname
  · have hnumeral := h.numeral
    rw [startsHere_of_isDigit _ hdigit] at hnumeral
    cases hnumeral
  · simp [startsName_hyphen, startsWithNameStart, hstart] at hname
  · rw [startsName_of_isNameStart (by decide)] at hname
    cases hname

theorem kind_of_inWord {l : Lexeme} {s : Bytes} (h : Shape l s)
    (hlast : inWord l.raw.getLast? = true) (hnext : ∃ b ∈ s.head?, Byte.isNameStart b = true) :
    l.kind = .cdo := by
  have hlone := fun c hc hword => lone_of_inWord (c := c) (s := s) hc hword hnext
  have hclosed := last_of_shape h
  rcases hnext with ⟨b, hb, hstart⟩
  rcases List.head?_eq_some_iff.mp hb with ⟨s, rfl⟩
  have hmarked : l.kind = .url ∨ l.kind = .string ∨ l.kind = .function -> False := by
    intro hkind
    rcases hclosed hkind with hnil | hfalse
    · cases hnil
    · rw [hfalse] at hlast
      cases hlast
  have hstops : ∀ {x v : Bytes}, Reader.name.scan (x ++ b :: s) = ⟨v, x, b :: s⟩ -> False := by
    intro x v hscan
    have hread := Reader.name.read_scan_rest (x ++ b :: s)
    rw [hscan, Reader.name_read_of_isName s (Byte.isName_of_isNameStart hstart)] at hread
    cases hread
  have hmarks : ∀ {x : Bytes} {c : UInt8}, isWordByte c = false -> l.raw = x ++ [c] -> False := by
    intro x c hc hraw
    rw [hraw, List.getLast?_concat, inWord, Option.any_some, hc] at hlast
    cases hlast
  cases h with
  | cdo => rfl
  | ident hbegin hscan hparen => exact (hstops hscan).elim
  | atKeyword hbegin hscan => exact (hstops hscan).elim
  | hash hbegin hscan => exact (hstops hscan).elim
  | dimension hbegin hread hunit hscan => exact (hstops hscan).elim
  | number hbegin hread hunit hpercent =>
      rw [startsName_of_isNameStart hstart] at hunit
      cases hunit
  | whitespace hne hall hstop =>
      rename_i x
      rcases List.eq_nil_or_concat x with rfl | ⟨x, c, rfl⟩
      · exact absurd rfl hne
      · rw [List.concat_eq_append, List.all_append, Bool.and_eq_true] at hall
        have hc : Byte.isSpace c = true := by simpa using hall.2
        refine (hmarks ?_ (List.concat_eq_append)).elim
        rcases Byte.isSpace_cases hc with rfl | rfl | rfl | rfl | rfl <;> decide
  | delim hc =>
      rename_i c
      exact (hlone c hc (by simpa [delim, verbatim, inWord] using hlast)).elim
  | punctuation hmark =>
      refine (hmarks (x := []) ?_ rfl).elim
      rcases punctuation?_cases hmark with rfl | rfl | rfl | rfl | rfl | rfl | rfl | rfl | rfl <;>
        decide
  | badString hquote hscan =>
      exact absurd hstart (by decide)
  | cdc => exact (hmarks (x := [0x2D, 0x2D]) (by decide) rfl).elim
  | percentage hbegin hread => exact (hmarks (by decide) rfl).elim
  | badUrl hopen hscan hgap hne hstop htail =>
      rename_i opening body v gap tail w
      exact (hmarks (x := opening ++ (body ++ (gap ++ tail))) (c := 0x29) (by decide)
        (by simp)).elim
  | string hquote hscan => exact (hmarked (Or.inr (Or.inl rfl))).elim
  | function hbegin hscan hargument => exact (hmarked (Or.inr (Or.inr rfl))).elim
  | url hopen hscan hgap => exact (hmarked (Or.inl rfl)).elim

theorem inWord_of_comments {gap s : Bytes} (h : Gap gap s) (hs : s ≠ []) (hgap : gap ≠ []) :
    inWord gap.getLast? = false := by
  rcases h.isFilled with ⟨comments, last, rfl, hall, hlast⟩
  rcases hlast with rfl | ⟨hnil, _⟩
  · rcases List.eq_nil_or_concat comments with rfl | ⟨front, c, rfl⟩
    · exact absurd rfl hgap
    · rcases hall c (by simp) with ⟨body, rfl, _⟩
      have hend : (front.concat (0x2F :: 0x2A :: (body ++ [0x2A, 0x2F]))).flatten ++ [] =
          (front.flatten ++ 0x2F :: 0x2A :: (body ++ [0x2A])) ++ [0x2F] := by
        simp
      rw [hend, List.getLast?_concat]
      decide
  · exact absurd hnil hs

/-- The token stands right behind `<!--`. -/
def BehindMark (before : List Token) (t : Token) : Prop :=
  ∃ p ∈ before.head?, p.kind = .cdo ∧ p.stop = t.offset

theorem front_of_located {s front gap rest : Bytes} {before after : List Token} {t : Token}
    (h : Located s before t after front gap rest)
    (hstart : ∃ b ∈ t.raw.head?, Byte.isNameStart b = true) :
    inWord (front ++ gap).getLast? = false ∨ BehindMark before t := by
  have hne : t.raw ≠ [] := raw_ne_nil h.shape
  by_cases hgap : gap = []
  · subst hgap
    rw [List.append_nil]
    cases hbefore : before.head? with
    | none =>
        left
        rw [h.first (List.head?_eq_none_iff.mp hbefore)]
        rfl
    | some p =>
        rcases h.ahead p hbefore with ⟨hstop, ⟨x, rfl⟩, hshape⟩
        rw [getLast?_append_of_ne_nil (show p.raw ≠ [] from raw_ne_nil hshape)]
        cases hword : inWord p.raw.getLast? with
        | false => exact Or.inl rfl
        | true =>
            right
            have hkind : p.kind = .cdo := by
              apply kind_of_inWord hshape hword
              rcases hstart with ⟨b, hb, hname⟩
              refine ⟨b, ?_, hname⟩
              rw [List.nil_append, List.head?_append_of_ne_nil _ hne]
              exact hb
            refine ⟨p, hbefore, hkind, ?_⟩
            rw [hstop, h.place]
            rfl
  · left
    rw [getLast?_append_of_ne_nil hgap]
    exact inWord_of_comments h.comments (List.append_ne_nil_of_left_ne_nil hne rest) hgap

/-!
## Words and their marks
-/

theorem lower_of_sameWord {a w : Bytes} (hw : lower w = w) (h : sameWord a w = true) :
    lower a = w := by
  rw [sameWord, beq_iff_eq, hw] at h
  exact h

theorem isNameStart_of_letter {b : UInt8} (h : Byte.isLower (Byte.toLower b) = true) :
    Byte.isNameStart b = true := by
  unfold Byte.toLower at h
  split at h
  · simp [Byte.isNameStart, Byte.isAlpha, *]
  · simp [Byte.isNameStart, Byte.isAlpha, h]

theorem nameStart_of_lower {a w x : Bytes} (h : lower a = w)
    (hw : ∃ c ∈ w.head?, Byte.isLower c = true) :
    ∃ b ∈ (a ++ x).head?, Byte.isNameStart b = true := by
  subst h
  rcases hw with ⟨c, hc, hlow⟩
  cases a with
  | nil => cases hc
  | cons b a =>
      cases hc
      exact ⟨b, rfl, isNameStart_of_letter hlow⟩

theorem all_isBlank_of_isSpace {gap : Bytes} (h : gap.all Byte.isSpace = true) :
    gap.all Byte.isBlank = true := by
  rw [List.all_eq_true] at h ⊢
  intro b hb
  rcases Byte.isSpace_cases (h b hb) with rfl | rfl | rfl | rfl | rfl <;> decide

variable {s front gap rest : Bytes} {before after : List Token} {t : Token}

theorem laidBareAt_of_located {found rest' : Bytes} {p : Pattern} (hmem : p ∈ dangerous)
    (h : Located (replacePatterns s) before t after front gap rest)
    (hraw : t.raw ++ rest = found ++ rest')
    (htake : p.take? (front ++ gap).getLast? (found ++ rest') = some (found, rest')) :
    p.wholeWord = true ∧ LaidBareAt s t.offset := by
  have htext := h.text
  rw [hraw, ← List.append_assoc] at htext
  have hbare := laidBareAt_of_take? hmem htext htake
  rw [List.length_append, ← h.place] at hbare
  exact hbare

theorem hides_of_expression (h : Located (replacePatterns s) before t after front gap rest)
    (hkind : t.kind = .function) (hword : sameWord t.value (ascii "expression") = true)
    (hslash : 0x5C ∉ t.raw) : LaidBareAt s t.offset ∨ BehindMark before t := by
  have hraw : t.raw = t.value ++ [0x28] := raw_of_function h.shape hkind hslash
  have hlower := lower_of_sameWord (by decide) hword
  rcases front_of_located h (by
    rw [hraw]
    exact nameStart_of_lower hlower (by decide)) with hfront | hmark
  · left
    have htake := take?_marked (p := expression) (m := 0x28) rfl rfl rfl
      (front ++ gap).getLast? [] (by rw [hfront]; rfl) hlower rfl rest
    exact (laidBareAt_of_located (by simp [dangerous]) h (by rw [hraw]; simp) htake).2
  · exact Or.inr hmark

theorem no_address {scheme : Bytes} (hscheme : scheme = scriptScheme ∨ scheme = pageScheme)
    (h : Located (replacePatterns s) before t after front gap rest) {word blanks quote x : Bytes}
    {value : Bytes} (hword : sameWord word (ascii "url") = true)
    (hblanks : blanks.all Byte.isSpace = true)
    (hquote : quote = [] ∨ ∃ q, quote = [q] ∧ Byte.isQuote q = true)
    (hvalue : startsWithWord scheme value = true)
    (htext : t.raw ++ rest = word ++ 0x28 :: (blanks ++ (quote ++ (value ++ x)))) : False := by
  rcases Option.isSome_iff_exists.mp hvalue with ⟨y, hdrop⟩
  have hlower := lower_take_of_dropWord? hdrop
  have happ := take_append_of_dropWord? hdrop
  generalize value.take scheme.length = f at hlower happ
  subst happ
  have htake := take?_address hscheme (front ++ gap).getLast? (lower_of_sameWord (by decide) hword)
    (all_isBlank_of_isSpace hblanks) hquote hlower (y ++ x)
  have hmem : addressWith scheme ∈ dangerous := by
    rcases hscheme with rfl | rfl <;> simp [dangerous]
  have hwhole := (laidBareAt_of_located hmem h (by rw [htext]; simp) htake).1
  cases hwhole

theorem not_isDangerousAddress (h : Located (replacePatterns s) before t after front gap rest)
    (hkind : t.kind = .url) (hslash : 0x5C ∉ t.raw) : isDangerousAddress t.value = false := by
  rcases raw_of_url h.shape hkind hslash with ⟨word, blanks, x, hraw, hword, hblanks⟩
  change t.raw = word ++ 0x28 :: (blanks ++ (t.value ++ x)) at hraw
  rw [Bool.eq_false_iff]
  intro haddress
  have htext : t.raw ++ rest =
      word ++ 0x28 :: (blanks ++ ([] ++ (t.value ++ (x ++ rest)))) := by
    rw [hraw]
    simp
  rcases Bool.or_eq_true_iff.mp haddress with hvalue | hvalue
  · exact no_address (Or.inl rfl) h hword hblanks (Or.inl rfl) hvalue htext
  · exact no_address (Or.inr rfl) h hword hblanks (Or.inl rfl) hvalue htext

theorem not_isDangerousLink {u : Token} {ws ts : List Token}
    (h : Located (replacePatterns s) before t after front gap rest) (hkind : t.kind = .function)
    (hword : sameWord t.value (ascii "url") = true) (hafter : after = ws ++ u :: ts)
    (hspace : ∀ w ∈ ws, w.kind = .whitespace) (hstring : u.kind = .string)
    (hslash : 0x5C ∉ t.raw ++ rest) : isDangerousAddress u.value = false := by
  have hquote := startsWithQuote_of_function h.shape hkind hword
  rcases laid_argument h.laid hquote with ⟨blanks, ws', u', rest', ts', hts, hfirst⟩
  have hsame : u' = u := by
    have hvisible := hfirst.firstVisible ts'
    rw [← hts, hafter, firstVisible_of_space hspace (by rw [hstring]; decide)] at hvisible
    exact (Option.some.inj hvisible).symm
  subst hsame
  rw [List.mem_append, not_or, hfirst.text, List.mem_append, not_or, List.mem_append, not_or]
    at hslash
  have hraw : t.raw = t.value ++ [0x28] := raw_of_function h.shape hkind hslash.1
  rcases raw_of_string hfirst.shape hstring hslash.2.2.1 with ⟨q, x, hq, hraw'⟩
  change u'.raw = q :: (u'.value ++ x) at hraw'
  have htext : t.raw ++ rest =
      t.value ++ 0x28 :: (blanks ++ ([q] ++ (u'.value ++ (x ++ rest')))) := by
    rw [hfirst.text, hraw, hraw']
    simp
  rw [Bool.eq_false_iff]
  intro haddress
  rcases Bool.or_eq_true_iff.mp haddress with hvalue | hvalue
  · exact no_address (Or.inl rfl) h hword hfirst.blank (Or.inr ⟨q, rfl, hq⟩) hvalue htext
  · exact no_address (Or.inr rfl) h hword hfirst.blank (Or.inr ⟨q, rfl, hq⟩) hvalue htext

theorem laid_spaced {offset : Nat} {s : Bytes} {ws ts : List Token}
    (h : Laid offset s (ws ++ t :: ts)) (hspace : ∀ w ∈ ws, w.kind = .whitespace)
    (hcomment : NoComment (t :: ws)) (hend : t.kind ≠ .endOfText) :
    ∃ blanks rest, s = blanks ++ (t.raw ++ rest) ∧ blanks.all Byte.isSpace = true ∧
      (ws ≠ [] -> blanks ≠ []) ∧ Shape t.lexeme rest := by
  induction ws generalizing offset s with
  | nil =>
      generalize hts : [] ++ t :: ts = us at h
      cases h with
      | ending hgap =>
          rw [(List.cons.inj hts).1] at hend
          exact absurd rfl hend
      | token hgap hshape htail =>
          rename_i gap s l us
          rcases List.cons.inj hts with ⟨rfl, rfl⟩
          obtain rfl : gap = [] := gap_nil (hcomment _ List.mem_cons_self)
          exact ⟨[], s, rfl, rfl, fun hne => absurd rfl hne, hshape⟩
  | cons w ws ih =>
      generalize hts : w :: ws ++ t :: ts = us at h
      cases h with
      | ending hgap =>
          have hnil := (List.cons.inj hts).2
          simp at hnil
      | token hgap hshape htail =>
          rename_i gap s l us
          rcases List.cons.inj hts with ⟨rfl, rfl⟩
          obtain rfl : gap = [] := gap_nil (hcomment _ (List.mem_cons_of_mem _ List.mem_cons_self))
          rcases ih htail (fun v hv => hspace v (List.mem_cons_of_mem _ hv))
            (fun v hv => hcomment v (by
              rcases List.mem_cons.mp hv with rfl | hv <;> simp [*])) with
            ⟨blanks, rest, rfl, hblanks, _, hshape'⟩
          have hl := space_of_shape hshape (hspace _ List.mem_cons_self)
          refine ⟨l.raw ++ blanks, rest, by simp, ?_, ?_, hshape'⟩
          · rw [List.all_append, hl, hblanks]
            rfl
          · intro _
            exact List.append_ne_nil_of_left_ne_nil (raw_ne_nil hshape) _

theorem hides_of_property {c : Token} {ws ts : List Token}
    (h : Located (replacePatterns s) before t after front gap rest) (hkind : t.kind = .ident)
    (hname : isDangerousProperty t.value = true) (hafter : after = ws ++ c :: ts)
    (hspace : ∀ w ∈ ws, w.kind = .whitespace) (hcolon : c.kind = .colon)
    (hcomment : NoComment (c :: ws)) (hslash : 0x5C ∉ t.raw) :
    sameWord t.value (ascii "behavior") = true ∧
      (LaidBareAt s t.offset ∨ BehindMark before t) := by
  have hlaid := h.laid
  rw [hafter] at hlaid
  rcases laid_spaced hlaid hspace hcomment (by rw [hcolon]; decide) with
    ⟨blanks, rest', htext, hblanks, _, hshape⟩
  have hraw : t.raw = t.value := raw_of_ident h.shape hkind hslash
  have hmark : c.raw = [0x3A] := raw_of_punctuation hshape rfl hcolon
  have hsplit : t.raw ++ rest = (t.value ++ (blanks ++ [0x3A])) ++ rest' := by
    rw [htext, hraw, hmark]
    simp
  have hblanks := all_isBlank_of_isSpace hblanks
  rcases Bool.or_eq_true_iff.mp hname with hword | hword
  · have hlower := lower_of_sameWord (by decide) hword
    refine ⟨hword, ?_⟩
    rcases front_of_located h (by
      rw [hraw, ← List.append_nil t.value]
      exact nameStart_of_lower hlower (by decide)) with hfront | hmark
    · left
      have htake := take?_marked (p := behavior) (m := 0x3A) rfl rfl rfl
        (front ++ gap).getLast? blanks (by rw [hfront]; rfl) hlower hblanks rest'
      exact (laidBareAt_of_located (by simp [dangerous]) h hsplit htake).2
    · exact Or.inr hmark
  · have htake := take?_marked (p := binding) (m := 0x3A) rfl rfl rfl
      (front ++ gap).getLast? blanks rfl (lower_of_sameWord (by decide) hword) hblanks rest'
    have hwhole := (laidBareAt_of_located (by simp [dangerous]) h hsplit htake).1
    cases hwhole

theorem not_spaced_import {u : Token} {ws ts : List Token}
    (h : Located (replacePatterns s) before t after front gap rest) (hkind : t.kind = .atKeyword)
    (hword : sameWord t.value (ascii "import") = true) (hafter : after = ws ++ u :: ts)
    (hspace : ∀ w ∈ ws, w.kind = .whitespace) (hstring : u.kind = .string)
    (hvalue : startsWithWord scriptScheme u.value = true) (hslash : 0x5C ∉ t.raw ++ rest) :
    ws = [] ∨ ¬NoComment (u :: ws) := by
  apply Classical.byContradiction
  intro hnot
  rw [not_or, not_not] at hnot
  have hlaid := h.laid
  rw [hafter] at hlaid
  rcases laid_spaced hlaid hspace hnot.2 (by rw [hstring]; decide) with
    ⟨blanks, rest', htext, hblanks, hne, hshape⟩
  rw [List.mem_append, not_or, htext, List.mem_append, not_or, List.mem_append, not_or] at hslash
  have hraw : t.raw = 0x40 :: t.value := raw_of_atKeyword h.shape hkind hslash.1
  rcases raw_of_string hshape hstring hslash.2.2.1 with ⟨q, x, hq, hraw'⟩
  change u.raw = q :: (u.value ++ x) at hraw'
  rcases Option.isSome_iff_exists.mp hvalue with ⟨y, hdrop⟩
  have hlower := lower_take_of_dropWord? hdrop
  have happ := take_append_of_dropWord? hdrop
  generalize u.value.take scriptScheme.length = f at hlower happ
  have hkeyword : lower (0x40 :: t.value) = ascii "@import" := by
    have himport := lower_of_sameWord (by decide) hword
    change Byte.toLower 0x40 :: lower t.value = _
    rw [himport]
    decide
  have htake := take?_scriptImport (front ++ gap).getLast? hkeyword (hne hnot.1)
    (all_isBlank_of_isSpace hblanks) hq hlower (y ++ (x ++ rest'))
  have hwhole := (laidBareAt_of_located (by simp [dangerous]) h (by
    rw [htext, hraw, hraw', ← happ]
    simp) htake).1
  cases hwhole

/-!
## Tokens that show a construct
-/

theorem exists_split_cons {u : Token} {ts : List Token}
    {p : List Token -> Token -> List Token -> Prop} :
    (∃ front t after, u :: ts = front ++ t :: after ∧ p front t after) ↔
      p [] u ts ∨ ∃ front t after, ts = front ++ t :: after ∧ p (u :: front) t after := by
  constructor
  · intro h
    rcases h with ⟨front, t, after, hsplit, hp⟩
    cases front with
    | nil =>
        rcases List.cons.inj hsplit with ⟨rfl, rfl⟩
        exact Or.inl hp
    | cons v front =>
        rcases List.cons.inj hsplit with ⟨rfl, hts⟩
        exact Or.inr ⟨front, t, after, hts, hp⟩
  · intro h
    rcases h with hp | ⟨front, t, after, rfl, hp⟩
    · exact ⟨[], u, ts, rfl, hp⟩
    · exact ⟨u :: front, t, after, rfl, hp⟩

theorem mem_collect_iff (before : List Token) {ts : List Token} {span : Span} :
    span ∈ Decoded.collect before ts [] ↔
      ∃ front t after, ts = front ++ t :: after ∧ t.offset = span.start ∧
        stopAt? (front.reverse ++ before) t after = some span.stop := by
  induction ts generalizing before with
  | nil => simp [Decoded.collect]
  | cons u ts ih =>
      have hnext := ih (u :: before)
      rw [exists_split_cons]
      simp only [List.reverse_cons, List.append_assoc, List.singleton_append, List.reverse_nil,
        List.nil_append]
      rw [← hnext]
      cases hstop : stopAt? before u ts with
      | none =>
          rw [collect_keep hstop]
          simp
      | some stop =>
          rw [collect_cut hstop, List.mem_cons]
          apply or_congr_left
          constructor
          · intro h
            rw [h]
            exact ⟨rfl, rfl⟩
          · intro h
            cases span
            rcases h with ⟨rfl, hspan⟩
            cases hspan
            rfl

theorem mem_spans_iff {s : Bytes} {span : Span} :
    span ∈ spans s ↔ ∃ before t after, tokenize s = before.reverse ++ t :: after ∧
      t.offset = span.start ∧ stopAt? before t after = some span.stop := by
  rw [spans, mem_collect_iff]
  constructor
  · intro h
    rcases h with ⟨front, t, after, hsplit, hstart, hstop⟩
    rw [List.append_nil] at hstop
    exact ⟨front.reverse, t, after, by rw [hsplit, List.reverse_reverse], hstart, hstop⟩
  · intro h
    rcases h with ⟨before, t, after, hsplit, hstart, hstop⟩
    exact ⟨before.reverse, t, after, hsplit, hstart, by simpa using hstop⟩

theorem lastSignificant_eq_some {before : List Token} {p : Token}
    (h : lastSignificant before = some p) :
    ∃ ws rest, before = ws ++ p :: rest ∧ (∀ w ∈ ws, w.kind = .whitespace) := by
  induction before with
  | nil => cases h
  | cons t ts ih =>
      rw [lastSignificant] at h
      split at h
      · rename_i hspace
        rcases ih h with ⟨ws, rest, rfl, hws⟩
        exact ⟨t :: ws, rest, rfl, List.forall_mem_cons.mpr ⟨hspace, hws⟩⟩
      · cases h
        exact ⟨[], ts, rfl, by simp⟩

/-- The construct that begins with the token `t` and ends at the offset is one that the first pass
over the text `s` missed. -/
inductive Missed (s : Bytes) (before : List Token) (t : Token) (after : List Token) :
    Nat -> Prop where
  | expression (hkind : t.kind = .function)
      (hword : sameWord t.value (ascii "expression") = true)
      (hmissed : LaidBareAt s t.offset ∨ BehindMark before t) : Missed s before t after t.stop
  | property {ws ts : List Token} {c : Token} (hkind : t.kind = .ident)
      (hname : isDangerousProperty t.value = true) (hafter : after = ws ++ c :: ts)
      (hspace : ∀ w ∈ ws, w.kind = .whitespace) (hcolon : c.kind = .colon)
      (hmissed : ¬NoComment (c :: ws) ∨ sameWord t.value (ascii "behavior") = true ∧
        (LaidBareAt s t.offset ∨ BehindMark before t)) : Missed s before t after c.stop
  | script {ws ts : List Token} {k : Token} (hkind : t.kind = .string)
      (hvalue : startsWithWord scriptScheme t.value = true) (hbefore : before = ws ++ k :: ts)
      (hspace : ∀ w ∈ ws, w.kind = .whitespace) (hkeyword : k.kind = .atKeyword)
      (himport : sameWord k.value (ascii "import") = true)
      (hmissed : ws = [] ∨ ¬NoComment (t :: ws)) : Missed s before t after t.stop

theorem stopAt?_of_missed {stop : Nat} (h : Missed s before t after stop) :
    stopAt? before t after = some stop := by
  cases h with
  | expression hkind hword hmissed => simp [stopAt?, hkind, hword]
  | property hkind hname hafter hspace hcolon hmissed =>
      simp [stopAt?, hkind, hname, hafter, colonStop?_of_space hspace hcolon]
  | script hkind hvalue hbefore hspace hkeyword himport hmissed =>
      rename_i ws ts k
      have hlast : lastSignificant before = some k := by
        rw [hbefore, lastSignificant_space hspace, lastSignificant,
          if_neg (by rw [hkeyword]; decide)]
      simp [stopAt?, hkind, hlast, isDangerousString, hkeyword, himport, hvalue]

theorem missed_of_string (hslash : 0x5C ∉ replacePatterns s)
    (htokens : tokenize (replacePatterns s) = before.reverse ++ t :: after)
    (hkind : t.kind = .string) {p : Token} (hlast : lastSignificant before = some p)
    (hdangerous : isDangerousString (some p) t.value = true) : Missed s before t after t.stop := by
  rcases lastSignificant_eq_some hlast with ⟨ws, ps, hbefore, hspace⟩
  have hsplit : tokenize (replacePatterns s) = ps.reverse ++ p :: (ws.reverse ++ t :: after) := by
    rw [htokens, hbefore]
    simp
  have hspace' : ∀ w ∈ ws.reverse, w.kind = .whitespace := by simpa using hspace
  simp only [isDangerousString] at hdangerous
  split at hdangerous
  · rename_i hurl
    rcases located_of_tokenize hsplit (by rw [hurl.1]; decide) with ⟨front, gap, rest, hlocated⟩
    rw [hlocated.text, List.mem_append, List.mem_append, not_or, not_or] at hslash
    have hno := not_isDangerousLink hlocated hurl.1 hurl.2 rfl hspace' hkind hslash.2.2
    rw [hno] at hdangerous
    cases hdangerous
  · split at hdangerous
    · rename_i himport
      rcases located_of_tokenize hsplit (by rw [himport.1]; decide) with
        ⟨front, gap, rest, hlocated⟩
      rw [hlocated.text, List.mem_append, List.mem_append, not_or, not_or] at hslash
      have hmissed := not_spaced_import hlocated himport.1 himport.2 rfl hspace' hkind hdangerous
        hslash.2.2
      refine .script hkind hdangerous hbefore hspace himport.1 himport.2 ?_
      simpa [NoComment] using hmissed
    · cases hdangerous

theorem missed_of_stopAt? {stop : Nat} (hslash : 0x5C ∉ replacePatterns s)
    (htokens : tokenize (replacePatterns s) = before.reverse ++ t :: after)
    (hstop : stopAt? before t after = some stop) : Missed s before t after stop := by
  have hend : t.kind ≠ .endOfText := by
    intro hkind
    simp [stopAt?, hkind] at hstop
  rcases located_of_tokenize htokens hend with ⟨front, gap, rest, hlocated⟩
  have hraw : 0x5C ∉ t.raw := by
    rw [hlocated.text] at hslash
    simp only [List.mem_append, not_or] at hslash
    exact hslash.2.2.1
  unfold stopAt? at hstop
  split at hstop
  · rename_i hkind
    rw [not_isDangerousAddress hlocated hkind hraw, if_neg Bool.false_ne_true] at hstop
    cases hstop
  · rename_i hkind
    split at hstop
    · rename_i hdangerous
      cases hstop
      cases hlast : lastSignificant before with
      | none =>
          rw [hlast] at hdangerous
          cases hdangerous
      | some p =>
          rw [hlast] at hdangerous
          exact missed_of_string hslash htokens hkind hlast hdangerous
    · cases hstop
  · rename_i hkind
    split at hstop
    · rename_i hword
      cases hstop
      exact .expression hkind hword (hides_of_expression hlocated hkind hword hraw)
    · cases hstop
  · rename_i hkind
    split at hstop
    · rename_i hname
      rcases colonStop?_eq_some hstop with ⟨ws, c, ts, hafter, hspace, hcolon, rfl⟩
      refine .property hkind hname hafter hspace hcolon ?_
      by_cases hcomment : NoComment (c :: ws)
      · exact Or.inr (hides_of_property hlocated hkind hname hafter hspace hcolon hcomment hraw)
      · exact Or.inl hcomment
    · cases hstop
  · cases hstop

/-!
## What is left
-/

/-- What the tokens of a sanitized text still show. Without a backslash they show just what the
plain patterns missed: no address, and of the rest only what hides behind a comment or a mark, or
was laid bare. With one, and where the addresses that lose their strings are closed, they show
something exactly if tokens join that were no neighbours before. -/
theorem spans_sanitize (s : Bytes) :
    (s.contains 0x5C = false -> ∀ span, span ∈ spans (sanitize s) ↔
      ∃ before t after, tokenize (sanitize s) = before.reverse ++ t :: after ∧
        t.offset = span.start ∧ Missed s before t after span.stop) ∧
    (s.contains 0x5C = true ->
      argumentsClose (replacePatterns s) (tokenize (replacePatterns s)) = true ->
        (spans (sanitize s) = [] ↔ Unjoined (replacePatterns s))) := by
  have hcontains := contains_replacePatterns s
  constructor
  · intro hslash span
    have hplain : 0x5C ∉ replacePatterns s := by
      rw [hslash] at hcontains
      simpa using hcontains
    have hsame : sanitize s = replacePatterns s := by
      unfold sanitize
      dsimp only
      rw [hcontains, hslash, if_neg Bool.false_ne_true]
    rw [hsame, mem_spans_iff]
    constructor
    · intro h
      rcases h with ⟨before, t, after, htokens, hstart, hstop⟩
      exact ⟨before, t, after, htokens, hstart, missed_of_stopAt? hplain htokens hstop⟩
    · intro h
      rcases h with ⟨before, t, after, htokens, hstart, hmissed⟩
      exact ⟨before, t, after, htokens, hstart, stopAt?_of_missed hmissed⟩
  · intro hslash hclose
    unfold sanitize
    dsimp only
    rw [hcontains, if_pos hslash]
    exact spans_replaceSpans hclose

/-- A comment hides the colon of a behavior from the first pass. An escape hides an expression and
an address, which the second pass finds; but what it cuts out can stand between a behavior and its
colon. -/
theorem spans_sanitize_of_spellings :
    (∃ before t after,
      tokenize (sanitize (ascii "a\x7bbehavior/**/:x\x7d")) = before.reverse ++ t :: after ∧
        t.offset = 2 ∧ Missed (ascii "a\x7bbehavior/**/:x\x7d") before t after 15) ∧
      spans (sanitize
        (ascii "a\x7bwidth:expr\\65ssion(1);b:url('java\\73 cript:x')\x7d")) = [] ∧
      spans (sanitize (ascii "a\x7bbehavior beh\\61vior::url(x.htc)\x7d")) ≠ [] := by
  refine ⟨?_, ?_, ?_⟩
  · have hspan : (⟨2, 15⟩ : Span) ∈ spans (sanitize (ascii "a\x7bbehavior/**/:x\x7d")) := by
      decide +kernel
    exact ((spans_sanitize _).1 (by decide +kernel) ⟨2, 15⟩).mp hspan
  · apply ((spans_sanitize _).2 (by decide +kernel) (by decide +kernel)).mpr
    unfold Unjoined
    decide +kernel
  · intro hnil
    have hjoins := ((spans_sanitize _).2 (by decide +kernel) (by decide +kernel)).mp hnil
    revert hjoins
    unfold Unjoined
    decide +kernel

end Sanitize
end StyleTrim
