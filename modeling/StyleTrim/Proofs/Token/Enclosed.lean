import StyleTrim.Proofs.Token.Separators
import StyleTrim.Proofs.Token.Terminated

/-!
# A text in parentheses

A text without open ends and lone backslashes is read in front of a closing parenthesis as it is
read at its end. No token goes on with a parenthesis. A token may look further than at the byte
behind it, but whatever it looks for has none in it, except that an escape takes one behind a
backslash.
-/

namespace StyleTrim

structure Whole (s : Bytes) : Prop where
  slash : s.head? = some 0x5C -> Escape.startsHere s = true
  hyphen : s ≠ [0x2D, 0x5C]

namespace Whole

variable {s : Bytes}

theorem ne_slash (h : Whole s) : s ≠ [0x5C] := by
  rintro rfl
  cases h.slash rfl

theorem front {p : UInt8 -> Prop} (hfront : ∀ b ∈ s.head?, p b) (hparen : p 0x29) (y : Bytes) :
    ∀ b ∈ (s ++ 0x29 :: y).head?, p b := by
  cases s with
  | nil => simpa using hparen
  | cons b s => simpa using hfront

theorem startsWithDigit (s y : Bytes) :
    Numeral.startsWithDigit (s ++ 0x29 :: y) = Numeral.startsWithDigit s := by
  cases s <;> rfl

theorem startsWithNameStart (s y : Bytes) :
    Lexeme.startsWithNameStart (s ++ 0x29 :: y) = Lexeme.startsWithNameStart s := by
  cases s <;> rfl

theorem sign (s y : Bytes) :
    ∃ s', (Numeral.sign s).2 = s' ∧ (Numeral.sign (s ++ 0x29 :: y)).2 = s' ++ 0x29 :: y := by
  cases s with
  | nil => exact ⟨[], rfl, rfl⟩
  | cons b s =>
      simp only [Numeral.sign, List.cons_append]
      split
      · exact ⟨s, rfl, rfl⟩
      · exact ⟨b :: s, rfl, rfl⟩

theorem startsFraction (s y : Bytes) :
    Numeral.startsFraction (s ++ 0x29 :: y) = Numeral.startsFraction s := by
  cases s with
  | nil => rfl
  | cons b s =>
      by_cases hpoint : b = 0x2E
      · subst hpoint
        exact startsWithDigit s y
      · simp [Numeral.startsFraction, hpoint]

theorem startsExponent (s y : Bytes) :
    Numeral.startsExponent (s ++ 0x29 :: y) = Numeral.startsExponent s := by
  cases s with
  | nil => rfl
  | cons b s =>
      rcases sign s y with ⟨s', hs, hy⟩
      simp [Numeral.startsExponent, hs, hy, startsWithDigit]

theorem startsNumeral (s y : Bytes) :
    Numeral.startsHere (s ++ 0x29 :: y) = Numeral.startsHere s := by
  rcases sign s y with ⟨s', hs, hy⟩
  rw [Numeral.startsHere_eq, Numeral.startsHere_eq, hs, hy, startsWithDigit, startsFraction]

theorem startsEscape (h : s ≠ [0x5C]) (y : Bytes) :
    Escape.startsHere (s ++ 0x29 :: y) = Escape.startsHere s := by
  cases s with
  | nil => rfl
  | cons b s =>
      by_cases hb : b = 0x5C
      · subst hb
        cases s with
        | nil => exact absurd rfl h
        | cons c s => rfl
      · rw [List.cons_append, Escape.startsHere_cons_of_ne hb, Escape.startsHere_cons_of_ne hb]

theorem startsName (h : Whole s) (y : Bytes) :
    Lexeme.startsName (s ++ 0x29 :: y) = Lexeme.startsName s := by
  cases s with
  | nil => rfl
  | cons b s =>
      by_cases hhyphen : b = 0x2D
      · subst hhyphen
        have hslash : s ≠ [0x5C] := fun hs => h.hyphen (by rw [hs])
        have hhead : ((s ++ 0x29 :: y).head? == some 0x2D) = (s.head? == some 0x2D) := by
          cases s <;> rfl
        rw [List.cons_append, Lexeme.startsName_hyphen, Lexeme.startsName_hyphen, hhead,
          startsWithNameStart, startsEscape hslash]
      · have hplain : ∀ s, Lexeme.startsName (b :: s) =
            (Byte.isNameStart b || Escape.startsHere (b :: s)) := by
          intro s
          unfold Lexeme.startsName
          split
          · rename_i heq
            exact absurd (List.cons.inj heq).1 hhyphen
          · rename_i heq
            exact absurd (List.cons.inj heq).1 hhyphen
          · rfl
        have hescape := startsEscape h.ne_slash y
        rw [List.cons_append] at hescape ⊢
        rw [hplain, hplain, hescape]

theorem startsCdoTail {y : Bytes} (h : Lexeme.startsCdoTail (s ++ 0x29 :: y) = true) :
    Lexeme.startsCdoTail s = true := by
  rcases Lexeme.startsCdoTail_cases h with ⟨t, ht⟩
  match s with
  | [] => cases ht
  | [b] => simp at ht
  | [b, c] => simp at ht
  | b :: c :: d :: s =>
      simp only [List.cons_append, List.cons.injEq] at ht
      rcases ht with ⟨rfl, rfl, rfl, _⟩
      rfl

theorem startsWithQuote (s y : Bytes) :
    Lexeme.startsWithQuote ((s ++ 0x29 :: y).dropWhile Byte.isSpace) =
      Lexeme.startsWithQuote (s.dropWhile Byte.isSpace) := by
  induction s with
  | nil => rfl
  | cons b s ih =>
      simp only [List.cons_append, List.dropWhile_cons]
      split
      · exact ih
      · rfl

end Whole

namespace Lexeme

open Token

variable {l : Lexeme} {s : Bytes}

theorem nameEnds_enclosed (h : Whole s) (hread : Reader.name.read s = none) (y : Bytes) :
    NameEnds (s ++ 0x29 :: y) s := by
  have hstop : EndsName s := by
    intro b hb
    rcases List.head?_eq_some_iff.mp hb with ⟨t, rfl⟩
    constructor
    · rw [Bool.eq_false_iff]
      intro hname
      rw [Reader.name_read_of_isName t hname] at hread
      cases hread
    · rintro rfl
      have hsome := name_read_of_escape (h.slash rfl)
      rw [hread] at hsome
      cases hsome
  constructor
  · exact Whole.front hstop (by decide) y
  · cases s with
    | nil => exact Or.inr (sparing_paren y)
    | cons b s => exact Or.inl rfl

theorem head?_enclosed {b : UInt8} (h : s.head? ≠ some b) (hb : b ≠ 0x29) (y : Bytes) :
    (s ++ 0x29 :: y).head? ≠ some b := by
  cases s with
  | nil => simpa using hb.symm
  | cons c s => simpa using h

theorem spares_enclosed (h : Shape l s) (hs : Whole s) (hslash : l.kind = .delim -> l.raw ≠ [0x5C])
    (y : Bytes) : l.Spares (s ++ 0x29 :: y) s := by
  have hstop : ∀ {x v : Bytes}, Reader.name.scan (x ++ s) = ⟨v, x, s⟩ ->
      NameEnds (s ++ 0x29 :: y) s := by
    intro x v hscan
    have hread := Reader.name.read_scan_rest (x ++ s)
    rw [hscan] at hread
    exact nameEnds_enclosed hs hread y
  cases h with
  | whitespace hne hall hfollow => exact Whole.front hfollow (by decide) y
  | ident hstart hscan hparen =>
      refine ⟨hstop hscan, head?_enclosed hparen (by decide) y, fun hraw => ?_⟩
      subst hraw
      apply head?_enclosed _ (by decide)
      intro hhead
      rcases List.head?_eq_some_iff.mp hhead with ⟨t, rfl⟩
      cases hstart.2
  | function hstart hscan hargument =>
      rw [opensAddress, ← Whole.startsWithQuote s y] at hargument
      exact hargument
  | atKeyword hstart hscan => exact hstop hscan
  | hash hstart hscan => exact hstop hscan
  | number hstart hread hname hpercent =>
      refine ⟨⟨?_, ?_, ?_⟩, ?_, head?_enclosed hpercent (by decide) y⟩
      · rw [Whole.startsWithDigit]
        exact Numeral.read_stop hread
      · rw [Whole.startsFraction]
        exact id
      · rw [Whole.startsExponent]
        exact id
      · rw [hs.startsName]
        exact hname
  | dimension hstart hread hname hscan =>
      refine ⟨hstop hscan, fun n x _ hne hunit hnumeral => ?_⟩
      apply Numeral.read_again hne hnumeral (endsAs_of_startsName hunit _)
      rw [← List.append_assoc, Whole.startsExponent]
      exact id
  | delim hlone =>
      rename_i b
      intro c hc
      obtain rfl : b = c := (List.cons.inj hc).1
      have hb : b ≠ 0x5C := by
        rintro rfl
        exact hslash rfl rfl
      have hwhole : Whole (b :: s) := by
        constructor
        · rintro ⟨⟩
          exact absurd rfl hb
        · rintro ⟨⟩
          exact hs.ne_slash rfl
      constructor
      · rw [← List.cons_append, hwhole.startsName]
        exact hlone.name
      · rw [← List.cons_append, Whole.startsNumeral]
        exact hlone.numeral
      · intro hhash
        exact Reader.name_read_none (nameEnds_enclosed hs (hlone.hash hhash) y).stop
      · intro hkeyword
        rw [hs.startsName]
        exact hlone.keyword hkeyword
      · intro hcdo
        rw [Bool.eq_false_iff]
        intro hstart
        have hno := hlone.cdo hcdo
        rw [Whole.startsCdoTail hstart] at hno
        cases hno
  | punctuation hmark =>
      rcases punctuation?_cases hmark with rfl | rfl | rfl | rfl | rfl | rfl | rfl | rfl | rfl <;>
      · cases hmark
        trivial
  | _ => trivial

end Lexeme

/-!
## The tokens in front of the parenthesis
-/

namespace Token

open Lexeme

variable {s : Bytes} {ts : List Token}

/-- No comment stands in front of any token. -/
def NoComment (ts : List Token) : Prop :=
  ∀ t ∈ ts, t.afterComment = false

theorem NoComment.tail {t : Token} (h : NoComment (t :: ts)) : NoComment ts :=
  fun u hu => h u (List.mem_cons_of_mem t hu)

theorem gap_nil {offset : Nat} {l : Lexeme} {gap : Bytes}
    (h : (ofLexeme l offset (!gap.isEmpty)).afterComment = false) : gap = [] := by
  simpa [ofLexeme] using h

theorem whole_of_laid {offset : Nat} (h : Laid offset s ts) (hcomment : NoComment ts)
    (hslash : NoSlash (body ts)) : Whole s := by
  induction h with
  | ending hgap =>
      obtain rfl := gap_nil (l := ⟨.endOfText, [], [], false⟩) (hcomment _ List.mem_cons_self)
      exact ⟨nofun, nofun⟩
  | token hgap hshape htail ih =>
      rename_i offset gap s l ts
      obtain rfl : gap = [] := gap_nil (hcomment _ List.mem_cons_self)
      rw [body_cons _ (kind_ne_endOfText hshape)] at hslash
      have hs : Whole s := ih hcomment.tail hslash.tail
      have hplain := hslash _ List.mem_cons_self
      constructor
      · intro hhead
        rcases List.exists_cons_of_ne_nil (raw_ne_nil hshape) with ⟨b, x, hraw⟩
        rw [hraw] at hhead
        have hb : l.raw.head? = some 0x5C := by
          rw [hraw]
          exact hhead
        exact startsEscape_append (startsHere_of_slash (r := ofLexeme l _ _) hshape hplain hb) s
      · -- Behind a hyphen that is a token of its own, the backslash would stand alone.
        intro hhyphen
        rw [List.nil_append] at hhyphen
        have hfirst : l.raw.head? = some 0x2D := by
          rw [← List.head?_append_of_ne_nil _ (raw_ne_nil hshape), hhyphen]
          rfl
        rcases read_of_head hshape hfirst with ⟨x, hraw, hread⟩
        rw [hraw, List.cons_append] at hhyphen
        rw [(List.cons.inj hhyphen).2] at hread
        exact hs.ne_slash (congrArg Prod.snd hread).symm

theorem streamFrom_enclosed {offset : Nat} (h : Laid offset s ts) (hcomment : NoComment ts)
    (hslash : NoSlash (body ts)) (hclosed : ∀ t ∈ body ts, t.lexeme.IsClosed) (y : Bytes) :
    streamFrom offset (s ++ 0x29 :: y) =
      body ts ++ streamFrom (offset + s.length) (0x29 :: y) := by
  induction h with
  | ending hgap =>
      obtain rfl := gap_nil (l := ⟨.endOfText, [], [], false⟩) (hcomment _ List.mem_cons_self)
      rfl
  | token hgap hshape htail ih =>
      rename_i offset gap s l ts
      obtain rfl : gap = [] := gap_nil (hcomment _ List.mem_cons_self)
      rw [body_cons _ (kind_ne_endOfText hshape)] at hslash hclosed ⊢
      have hs : Whole s := whole_of_laid htail hcomment.tail hslash.tail
      have hplain : l.kind = .delim -> l.raw ≠ [0x5C] := by
        intro hkind hraw
        have hno := hslash _ List.mem_cons_self
        have hvalue := raw_of_delim hshape hkind
        simp [isDelim, ofLexeme, hkind, ← hvalue, hraw] at hno
      have hagain := hshape.again (hclosed _ List.mem_cons_self)
        (spares_enclosed hshape hs hplain y)
      have hstands : Stands l (s ++ 0x29 :: y) := by
        apply stands_of_shape hagain
        intro hraw
        have hfirst := (stands_of_gap hgap hshape).comment
        rw [hraw] at hfirst
        apply head?_enclosed _ (by decide)
        intro hhead
        rcases List.head?_eq_some_iff.mp hhead with ⟨t, rfl⟩
        cases hfirst
      have hrest := ih hcomment.tail hslash.tail (fun t ht => hclosed t (List.mem_cons_of_mem _ ht))
      rw [List.nil_append, List.append_assoc, streamFrom_of_stands offset hstands]
      simp only [List.length_nil, Nat.add_zero] at hrest ⊢
      rw [hrest]
      simp [Nat.add_assoc]

end Token
end StyleTrim
