import StyleTrim.Proofs.Token.Parting

/-!
# One text behind another, token by token

A text is terminated when its last token is a semicolon or a closing brace. Any text can stand
behind it: the two are read as the tokens of the one and then the tokens of the other.
-/

namespace StyleTrim
namespace Token

open Lexeme

def isTerminator (t : Token) : Bool :=
  t.kind == .semicolon || t.kind == .rightBrace

theorem kind_of_isTerminator {t : Token} (h : t.isTerminator = true) :
    t.kind = .semicolon ∨ t.kind = .rightBrace := by
  simpa [isTerminator] using h

theorem kind_ne_of_isTerminator {t : Token} {kind : TokenKind} (h : t.isTerminator = true)
    (hkind : kind ≠ .semicolon ∧ kind ≠ .rightBrace) : t.kind ≠ kind := by
  rintro rfl
  rcases kind_of_isTerminator h with heq | heq
  · exact hkind.1 heq
  · exact hkind.2 heq

/-- The text ends with its last token, and that is a terminator. -/
def isTerminated (s : Bytes) : Bool :=
  match (body (tokenize s)).getLast? with
  | none => false
  | some t => t.isTerminator && t.stop == s.length

variable {l : Lexeme} {gap s s' : Bytes}

theorem stands_terminator (h : Shape l s) (hkind : l.kind = .semicolon ∨ l.kind = .rightBrace) :
    (∃ c, l.raw = [c] ∧ IsStop c) ∧ ∀ y, Stands l y := by
  cases h with
  | punctuation hmark =>
      rename_i b kind
      refine ⟨⟨b, rfl, ?_⟩, fun y => stands_of_shape (.punctuation hmark) ?_⟩
      rotate_left
      · intro hraw
        rw [(List.cons.inj hraw).1] at hmark
        cases hmark
      rcases punctuation?_cases hmark with rfl | rfl | rfl | rfl | rfl | rfl | rfl | rfl | rfl <;>
      · cases hmark
        first
          | decide
          | simp [verbatim] at hkind
  | _ => simp [verbatim, delim] at hkind

theorem Gap.again (h : Gap gap s) (hne : s ≠ []) (hread : Reader.comment.read s' = none) :
    Gap gap s' := by
  rcases h with ⟨v, hscan⟩
  refine ⟨v, Reader.comment.scan_of_keeps ?_ hread hscan⟩
  intro p x hp
  exact Reader.comment_read_again (by simp [hne]) hp _

theorem streamFrom_of_gap (offset : Nat) (hgap : Gap gap (l.raw ++ s)) (hshape : Shape l s) :
    streamFrom offset (gap ++ (l.raw ++ s)) =
      ofLexeme l (offset + gap.length) (!gap.isEmpty) ::
        streamFrom (offset + gap.length + l.raw.length) s := by
  rcases hgap with ⟨v, hscan⟩
  rcases reads_of_shape hshape with ⟨b, t, heq, hread⟩
  have hrest : (Reader.comment.scan (gap ++ (l.raw ++ s))).rest = b :: t := by rw [hscan, heq]
  rw [streamFrom_cons offset hrest, hscan, hread]

theorem startsWithQuote_append {c : UInt8} (hstop : IsStop c) (x y : Bytes) :
    startsWithQuote ((x ++ c :: y).dropWhile Byte.isSpace) =
      startsWithQuote (x.dropWhile Byte.isSpace) := by
  induction x with
  | nil => rcases hstop with rfl | rfl | rfl <;> rfl
  | cons b x ih =>
      simp only [List.cons_append, List.dropWhile_cons]
      split
      · exact ih
      · rfl

theorem body_cons {t : Token} (ts : List Token) (h : t.kind ≠ .endOfText) :
    body (t :: ts) = t :: body ts := by
  rw [body, List.takeWhile_cons_of_pos (by simpa using h), ← body]

theorem streamFrom_append {offset : Nat} {ts : List Token} {t : Token} (h : Laid offset s ts)
    (hlast : (body ts).getLast? = some t) (hterminator : t.isTerminator = true)
    (hstop : t.stop = offset + s.length) :
    (∃ x c, IsStop c ∧ s = x ++ [c] ∧ body (streamFrom offset x) = (body ts).dropLast) ∧
      ∀ y, streamFrom offset (s ++ y) = body ts ++ streamFrom (offset + s.length) y := by
  induction h with
  | ending hgap => cases hlast
  | token hgap hshape htail ih =>
      rename_i offset gap s l ts
      have hlength : offset + (gap ++ (l.raw ++ s)).length =
          offset + gap.length + l.raw.length + s.length := by
        simp [Nat.add_assoc]
      rw [body_cons _ (kind_ne_endOfText hshape)] at hlast ⊢
      rw [hlength] at hstop ⊢
      cases hbody : body ts with
      | nil =>
          -- The token is the last one, so the text ends with it.
          rw [hbody, List.getLast?_singleton, Option.some.injEq] at hlast
          subst hlast
          rcases stands_terminator hshape (kind_of_isTerminator hterminator) with
            ⟨⟨c, hraw, hc⟩, hstands⟩
          obtain rfl : s = [] := by
            apply List.eq_nil_of_length_eq_zero
            simp only [Token.stop, ofLexeme] at hstop
            omega
          refine ⟨⟨gap, c, hc, by simp [hraw], ?_⟩, fun y => ?_⟩
          · have hread : Reader.comment.read [] = none := rfl
            rcases hgap.again (by simp [hraw]) hread with ⟨v, hscan⟩
            rw [List.append_nil] at hscan
            rw [streamFrom_nil offset (by rw [hscan])]
            rfl
          · have hgap' := hgap.again (by simp [hraw]) (hstands y).comment
            rw [List.append_nil, List.append_assoc,
              streamFrom_of_gap offset hgap' (hstands y).shape]
            rfl
      | cons u us =>
          rw [hbody, List.getLast?_cons_cons, ← hbody] at hlast
          rcases ih hlast hstop with ⟨⟨x, c, hc, rfl, hfront⟩, hread⟩
          -- What is put behind the token may be the text up to its end, or more than the text.
          have hagain : ∀ s', Parts s' (x ++ [c]) ->
              startsWithQuote (s'.dropWhile Byte.isSpace) =
                startsWithQuote (x.dropWhile Byte.isSpace) ->
              streamFrom offset (gap ++ (l.raw ++ s')) =
                ofLexeme l (offset + gap.length) (!gap.isEmpty) ::
                  streamFrom (offset + gap.length + l.raw.length) s' := by
            intro s' hparts hquote
            have hstands : Stands l s' := by
              refine (stands_of_gap hgap hshape).parts hparts fun hfunction => ?_
              have hargument := opensAddress_of_function hshape hfunction
              rwa [opensAddress, startsWithQuote_append hc, ← hquote] at hargument
            exact streamFrom_of_gap offset (hgap.again (by simp) hstands.comment) hstands.shape
          have hline : c ≠ 0x0A := by rcases hc with rfl | rfl | rfl <;> decide
          refine ⟨⟨gap ++ (l.raw ++ x), c, hc, by simp, ?_⟩, fun y => ?_⟩
          · have hlast : Parts [] [c] := .ended hline
            have hparts := hlast.append x
            rw [List.append_nil] at hparts
            rw [hagain x hparts rfl, body_cons _ (kind_ne_endOfText hshape), hfront, hbody]
            rfl
          · have hlast : Parts (c :: y) [c] := .here hc hline
            have hparts := hlast.append x
            have happ : gap ++ (l.raw ++ (x ++ [c])) ++ y = gap ++ (l.raw ++ (x ++ c :: y)) := by
              simp
            have hrest := hread y
            rw [List.append_assoc, List.singleton_append] at hrest
            rw [happ, hagain _ hparts (startsWithQuote_append hc x y), hrest, ← hbody]
            rfl

theorem exists_terminator (h : isTerminated s = true) :
    ∃ t, (body (tokenize s)).getLast? = some t ∧ t.isTerminator = true ∧ t.stop = s.length := by
  unfold isTerminated at h
  split at h
  · cases h
  · rename_i t hlast
    rw [Bool.and_eq_true, beq_iff_eq] at h
    exact ⟨t, hlast, h⟩

theorem tokenize_append (h : isTerminated s = true) (y : Bytes) :
    tokenize (s ++ y) = body (tokenize s) ++ streamFrom s.length y := by
  rcases exists_terminator h with ⟨t, hlast, hterminator, hstop⟩
  have happend :=
    (streamFrom_append (laid_tokenize s) hlast hterminator (by simpa using hstop)).2 y
  rwa [Nat.zero_add] at happend

end Token
end StyleTrim
