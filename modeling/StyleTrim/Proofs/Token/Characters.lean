import StyleTrim.Proofs.Text.Characters
import StyleTrim.Proofs.Token.Lossless
import StyleTrim.Proofs.Token.Settled

/-!
# Tokens are made of whole characters

A token may end in the bytes of a character beyond ASCII only where a name ends, and what follows a
name is no such byte. So no token of a valid text begins or ends inside of a character. The decoded
value of a name is valid too: what an escape leaves out is ASCII, and a number stands for a whole
character. The byte behind a backslash may be the first one of a character; then the others follow
it in the value as they do in the text.
-/

namespace StyleTrim

open Utf8

/-!
## Names
-/

namespace Escape

theorem ascii_of_digits {digits gap s : Bytes} (hdigits : hexDigits (digits ++ (gap ++ s)) = digits)
    (hgap : terminator (gap ++ s) = gap) : ∀ b ∈ 0x5C :: (digits ++ gap), b < 0x80 := by
  have hall := (hexDigits_append_eq.mp hdigits).1
  have hspace : ∀ b ∈ gap, Byte.isSpace b = true := by
    rcases terminator_append_eq.mp hgap with ⟨rfl, _⟩ | ⟨c, rfl, hc, _⟩ | rfl
    · exact nofun
    · exact List.forall_mem_singleton.mpr hc
    · decide +kernel
  rw [List.forall_mem_cons, List.forall_mem_append]
  exact ⟨by decide, fun b hb => Byte.ascii_of_isHexDigit (List.all_eq_true.mp hall b hb),
    fun b hb => Byte.ascii_of_isSpace (hspace b hb)⟩

end Escape

namespace Reader

theorem isValid_name {before x v s : Bytes} (h : IsValid (before ++ x))
    (hscan : name.scan (x ++ s) = ⟨v, x, s⟩) : IsValid (before ++ v) := by
  induction hlength : x.length using Nat.strongRecOn generalizing before x v with
  | ind length ih =>
    rcases name.scan_cases hscan with ⟨rfl, rfl, _⟩ | ⟨p, y, w, rfl, rfl, hread, hrest⟩
    · exact h
    have hpos := List.length_pos_iff.mpr (name.raw_ne_nil hread)
    rw [List.length_append] at hlength
    rcases name_read_cases hread with ⟨b, rfl, _⟩ | hescape
    · change IsValid (before ++ ([b] ++ y)) at h
      change IsValid (before ++ ([b] ++ w))
      rw [← List.append_assoc] at h ⊢
      exact ih y.length (by omega) h hrest rfl
    rcases Escape.read_cases hescape with ⟨c, rfl, _⟩ | ⟨digits, gap, _, rfl, _, hdigits, hgap⟩
    · -- the backslash goes, and the byte behind it begins what is read next
      rcases h.around (by decide) with ⟨hbefore, hbehind⟩
      have hvalue : IsValid ([c] ++ w) := ih y.length (by omega) hbehind hrest rfl
      exact hbefore.append hvalue
    · rcases h.split (head_of_ascii (by decide) _) with ⟨hbefore, hbehind⟩
      have hy : IsValid y := hbehind.behind (Escape.ascii_of_digits hdigits hgap)
      have hvalue : IsValid ([] ++ w) := ih y.length (by omega) hy hrest rfl
      exact hbefore.append ((isValid_encode _).append hvalue)

theorem seam_of_name {x v s : Bytes} (hscan : name.scan (x ++ s) = ⟨v, x, s⟩) (front : Bytes) :
    Seam front s := by
  right
  have hread := name.read_scan_rest (x ++ s)
  rw [hscan] at hread
  intro b hb
  apply isContinuation_of_ascii
  apply Byte.ascii_of_not_isName
  rw [Bool.eq_false_iff]
  intro hname
  cases s with
  | nil => cases hb
  | cons c s =>
      obtain rfl : c = b := Option.some.inj hb
      have hsome := Lexeme.name_read_of_isName s hname
      rw [hread] at hsome
      cases hsome

end Reader

/-!
## Where a token ends
-/

namespace Lexeme

theorem ascii_of_punctuation {b : UInt8} {kind : TokenKind} (h : punctuation? b = some kind) :
    b < 0x80 := by
  rcases punctuation?_cases h with rfl | rfl | rfl | rfl | rfl | rfl | rfl | rfl | rfl <;> decide

theorem ascii_of_startsName {b : UInt8} {s : Bytes} (h : startsName (b :: s) = false) :
    b < 0x80 := by
  rw [← UInt8.not_le]
  intro hhigh
  have hstart : Byte.isNameStart b = true := by simp [Byte.isNameStart, hhigh]
  rw [startsName_of_isNameStart hstart] at h
  cases h

theorem seam_of_shape {l : Lexeme} {s : Bytes} (h : Shape l s) : Seam l.raw s := by
  cases h with
  | whitespace hne hall hstop =>
      exact Or.inl fun b hb =>
        Byte.ascii_of_isSpace (List.all_eq_true.mp hall b (List.mem_of_getLast? hb))
  | string hquote hscan =>
      rename_i q body v
      exact seam_of_last (Byte.ascii_of_isQuote hquote) (q :: body) s
  | openString hquote hscan => exact Or.inr nofun
  | badString hquote hscan => exact Or.inr (head_of_ascii (by decide) _)
  | ident hstart hscan hparen => exact Reader.seam_of_name hscan _
  | function hstart hscan hargument => exact seam_of_last (by decide) _ s
  | url hopen hscan hgap =>
      rename_i opening body v gap
      have hseam := seam_of_last (x := 0x29) (by decide) (opening ++ (body ++ gap)) s
      simpa only [List.append_assoc] using hseam
  | openUrl hopen hscan hgap => exact Or.inr nofun
  | badUrl hopen hscan hgap hne hstop htail =>
      rename_i opening body v gap tail w
      have hseam := seam_of_last (x := 0x29) (by decide) (opening ++ (body ++ (gap ++ tail))) s
      simpa only [List.append_assoc] using hseam
  | openBadUrl hopen hscan hgap hne hstop htail => exact Or.inr nofun
  | atKeyword hstart hscan => exact Reader.seam_of_name hscan _
  | hash hstart hscan => exact Reader.seam_of_name hscan _
  | number hstart hread hname hpercent =>
      right
      intro b hb
      cases s with
      | nil => cases hb
      | cons c s =>
          obtain rfl : c = b := Option.some.inj hb
          exact isContinuation_of_ascii (ascii_of_startsName hname)
  | percentage hstart hread => exact seam_of_last (by decide) _ s
  | dimension hstart hread hname hscan => exact Reader.seam_of_name hscan _
  | punctuation hmark => exact seam_of_last (ascii_of_punctuation hmark) [] s
  | cdc => exact seam_of_last (by decide) [0x2D, 0x2D] s
  | cdo => exact seam_of_last (by decide) [0x3C, 0x21, 0x2D] s
  | delim hlone => exact seam_of_last (ascii_of_startsName hlone.name) [] s

end Lexeme

namespace Token

open Lexeme

theorem seam_of_gap {gap s : Bytes} (h : Gap gap s) : Seam gap s := by
  rcases h.isFilled with ⟨comments, last, rfl, hall, rfl | ⟨rfl, _⟩⟩
  · rw [List.append_nil]
    cases comments using List.reverseRecOn with
    | nil => exact Or.inl nofun
    | append_singleton comments c =>
        rcases hall c (by simp) with ⟨body, rfl, _⟩
        have hseam := seam_of_last (x := 0x2F) (by decide)
          (comments.flatten ++ 0x2F :: 0x2A :: (body ++ [0x2A])) s
        simpa [List.flatten_append] using hseam
  · exact Or.inr nofun

/-!
## Tokens of a valid text
-/

/-- The token is made of whole characters of the text, and so is what may be written for it. -/
structure IsWhole (text : Bytes) (t : Token) : Prop where
  raw : IsValid t.raw
  closedText : IsValid t.closedText
  value : t.kind = .atKeyword -> IsValid t.value
  start : IsBoundary text t.offset
  stop : IsBoundary text t.stop

theorem isValid_dropLast {x : Bytes} (h : IsValid x) (hlone : endsInLoneBackslash x = true) :
    IsValid x.dropLast := by
  cases x using List.reverseRecOn with
  | nil => exact h
  | append_singleton x b =>
      rw [endsInLoneBackslash_concat, Bool.and_eq_true, beq_iff_eq] at hlone
      rcases hlone with ⟨rfl, _⟩
      rw [List.dropLast_concat]
      exact (h.around (by decide)).1

theorem isValid_take_one {t : Token} {s x : Bytes} (h : Shape t.lexeme s)
    (hopen : t.isOpenString = true) (hpre : x <+: t.raw) : IsValid (x.take 1) := by
  have hquoted : t.isQuoted := by
    simp only [isOpenString, Bool.or_eq_true, Bool.and_eq_true, beq_iff_eq] at hopen
    exact hopen.symm.imp And.left id
  rcases raw_of_isQuoted h hquoted with ⟨q, y, hraw, hquote⟩
  cases x with
  | nil => exact IsValid.nil
  | cons b x =>
      rw [hraw, List.cons_prefix_cons] at hpre
      rw [hpre.1, List.take_succ_cons, List.take_zero]
      exact isValid_singleton (Byte.ascii_of_isQuote hquote)

theorem isValid_closedText {t : Token} {s : Bytes} (h : Shape t.lexeme s) (hraw : IsValid t.raw) :
    IsValid t.closedText := by
  have hkept : IsValid (if endsInLoneBackslash t.raw then t.raw.dropLast else t.raw) := by
    split
    · rename_i hlone
      exact isValid_dropLast hraw hlone
    · exact hraw
  have hprefix : (if endsInLoneBackslash t.raw then t.raw.dropLast else t.raw) <+: t.raw := by
    split
    · exact List.dropLast_prefix t.raw
    · exact List.prefix_refl t.raw
  cases hstring : t.isOpenString with
  | true =>
      rw [closedText_of_openString hstring]
      exact hkept.append (isValid_take_one h hstring hprefix)
  | false =>
      cases haddress : t.isOpenAddress with
      | true =>
          rw [closedText_of_openAddress haddress]
          exact hkept.append (isValid_singleton (by decide))
      | false =>
          rw [closedText_of_closed hstring haddress]
          exact hraw

theorem isValid_value {l : Lexeme} {s : Bytes} (h : Shape l s) (hraw : IsValid l.raw)
    (hkind : l.kind = .atKeyword) : IsValid l.value := by
  cases h with
  | atKeyword hstart hscan =>
      rename_i x v
      have hname : IsValid ([] ++ x) := hraw.tail (by decide)
      exact Reader.isValid_name hname hscan
  | punctuation hmark => exact absurd hkind (ne_of_punctuation hmark rfl)
  | _ => cases hkind

theorem isWhole_of_laid {text : Bytes} {offset : Nat} {s : Bytes} {ts : List Token}
    (h : Laid offset s ts) (htext : text.drop offset = s) (hvalid : IsValid s) :
    ∀ t ∈ ts, t.IsWhole text := by
  induction h with
  | ending hgap =>
      rename_i offset gap
      have hend : IsBoundary text (offset + gap.length) := by
        apply IsValid.nil.isBoundary
        rw [← List.drop_drop, htext, List.drop_length]
      exact List.forall_mem_singleton.mpr
        ⟨IsValid.nil, IsValid.nil, nofun, hend, hend⟩
  | token hgap hshape htail ih =>
      rename_i offset gap s l ts
      have hstart : text.drop (offset + gap.length) = l.raw ++ s := by
        rw [← List.drop_drop, htext, List.drop_left]
      have hstop : text.drop (offset + gap.length + l.raw.length) = s := by
        rw [← List.drop_drop, hstart, List.drop_left]
      have hbehind := (hvalid.cut (seam_of_gap hgap)).2
      rcases hbehind.cut (seam_of_shape hshape) with ⟨hraw, hrest⟩
      refine List.forall_mem_cons.mpr ⟨⟨hraw, ?_, ?_, ?_, ?_⟩, ih hstop hrest⟩
      · exact isValid_closedText (t := ofLexeme l _ _) hshape hraw
      · exact isValid_value hshape hraw
      · exact hbehind.isBoundary hstart
      · exact hrest.isBoundary hstop

theorem isWhole_tokenize {s : Bytes} (h : IsValid s) : ∀ t ∈ tokenize s, t.IsWhole s :=
  isWhole_of_laid (laid_tokenize s) rfl h

/-!
## Written tokens
-/

theorem isValid_joint (place : Place) (left : Token) (space : Bool) (t : Token) :
    IsValid (joint place left space t) := by
  apply isValid_of_ascii
  rcases joint_cases place left space t with ⟨hjoint, _⟩ | hjoint | ⟨hjoint, _⟩ <;>
    rw [hjoint] <;> decide +kernel

theorem isValid_writeAfter {ts : List Token} (h : ∀ t ∈ ts, IsValid t.closedText) (place : Place)
    (last : Option Token) (space : Bool) : IsValid (writeAfter place last space ts) := by
  induction ts generalizing last space with
  | nil => exact IsValid.nil
  | cons t ts ih =>
      rw [List.forall_mem_cons] at h
      unfold writeAfter
      split
      · exact ih h.2 last space
      · split
        · exact ih h.2 last true
        · have hjoint : IsValid (jointAfter place last space t) := by
            cases last with
            | none => exact IsValid.nil
            | some left => exact isValid_joint place left space t
          exact hjoint.append (h.1.append (ih h.2 (some t) false))

theorem isValid_write {ts : List Token} (h : ∀ t ∈ ts, IsValid t.closedText) (place : Place) :
    IsValid (write place ts) := by
  refine (isValid_writeAfter h place none false).append (isValid_of_ascii ?_)
  intro b hb
  rcases isCloser_of_owed ts b hb with rfl | rfl | rfl <;> decide

end Token
end StyleTrim
