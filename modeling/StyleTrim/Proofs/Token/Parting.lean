import StyleTrim.Proofs.Token.Places
import StyleTrim.Proofs.Token.Rewritten

/-!
# Texts that part

Where something is cut out of a text and a comment is put there, the text goes on with a solidus.
Where a text is put behind another, the two go on with the mark that ends the first. No token goes
on with a solidus or with such a mark, so the tokens before that place are read as before, and so
they are where the text just ends. A token may look further than at the byte behind it, but whatever
it looks for has none of them in it. A lone backslash is the one that would: it stands before a line
feed, and so nothing may be cut out there that begins with one.
-/

namespace StyleTrim

def IsStop (c : UInt8) : Prop :=
  c = 0x2F ∨ c = 0x3B ∨ c = 0x7D

instance (c : UInt8) : Decidable (IsStop c) :=
  inferInstanceAs (Decidable (c = 0x2F ∨ c = 0x3B ∨ c = 0x7D))

/-- The text `s'` is the text `s` up to a place where `s'` ends or goes on with a stop, and `s` goes
on with a byte that is no line feed. -/
inductive Parts : Bytes -> Bytes -> Prop where
  | ended {b : UInt8} {t : Bytes} (hline : b ≠ 0x0A) : Parts [] (b :: t)
  | here {b c : UInt8} {t t' : Bytes} (hstop : IsStop c) (hline : b ≠ 0x0A) :
      Parts (c :: t') (b :: t)
  | later {b : UInt8} {s s' : Bytes} (htail : Parts s' s) : Parts (b :: s') (b :: s)

namespace Parts

variable {s s' : Bytes}

theorem append (h : Parts s' s) (x : Bytes) : Parts (x ++ s') (x ++ s) := by
  induction x with
  | nil => exact h
  | cons b x ih => exact .later ih

theorem ne_nil (h : Parts s' s) : s ≠ [] := by
  cases h <;> exact List.cons_ne_nil _ _

theorem head? (h : Parts s' s) : s'.head? = s.head? ∨ ∀ c ∈ s'.head?, IsStop c := by
  cases h with
  | ended hline => exact Or.inr (by simp)
  | here hstop hline => exact Or.inr (by simpa using hstop)
  | later htail => exact Or.inl rfl

theorem front (h : Parts s' s) {p : UInt8 -> Prop} (hfront : ∀ b ∈ s.head?, p b)
    (hstops : ∀ c, IsStop c -> p c) : ∀ b ∈ s'.head?, p b := by
  intro b hb
  rcases h.head? with hsame | hstop
  · rw [hsame] at hb
    exact hfront b hb
  · exact hstops b (hstop b hb)

theorem head?_ne (h : Parts s' s) {b : UInt8} (hfront : s.head? ≠ some b) (hb : ¬IsStop b) :
    s'.head? ≠ some b := by
  intro hhead
  rcases h.head? with hsame | hstop
  · exact hfront (hsame.symm.trans hhead)
  · exact hb (hstop b hhead)

theorem replaces (h : Parts s' s) : Replaces s' s := by
  rcases h.head? with hsame | hstop
  · exact Or.inl hsame
  · right
    intro b hb
    rcases hstop b hb with rfl | rfl | rfl <;> decide

/-!
## What begins in `s'` begins in `s`
-/

/-- What the first byte of `s'` shows, and no stop does, the first byte of `s` shows as well. -/
theorem any_head? (h : Parts s' s) {p : UInt8 -> Bool}
    (hstops : p 0x2F = false ∧ p 0x3B = false ∧ p 0x7D = false)
    (hstart : s'.head?.any p = true) : s.head?.any p = true := by
  rcases hstops with ⟨hsolidus, hsemicolon, hbrace⟩
  cases h with
  | ended hline => cases hstart
  | here hstop hline =>
      rcases hstop with rfl | rfl | rfl <;> simp_all
  | later htail => exact hstart

theorem startsWithNameStart (h : Parts s' s) (hstart : Lexeme.startsWithNameStart s' = true) :
    Lexeme.startsWithNameStart s = true := by
  rw [Lexeme.startsWithNameStart_eq] at hstart ⊢
  exact h.any_head? ⟨rfl, rfl, rfl⟩ hstart

theorem startsEscape (h : Parts s' s) (hstart : Escape.startsHere s' = true) :
    Escape.startsHere s = true := by
  cases h with
  | ended hline => cases hstart
  | here hstop hline => rcases hstop with rfl | rfl | rfl <;> cases hstart
  | later htail =>
      rename_i b t t'
      by_cases hb : b = 0x5C
      · subst hb
        cases htail with
        | ended hline | here hstop hline => simpa [Escape.startsHere] using hline
        | later htail => exact hstart
      · rw [Escape.startsHere_cons_of_ne hb] at hstart
        cases hstart

theorem startsName (h : Parts s' s) (hstart : Lexeme.startsName s' = true) :
    Lexeme.startsName s = true := by
  rcases Lexeme.startsName_cases hstart with ⟨b, t', rfl, hcases⟩
  cases h with
  | here hstop hline => rcases hstop with rfl | rfl | rfl <;> cases hstart
  | later htail =>
      rename_i t
      rcases hcases with hname | ⟨rfl, hescape⟩ | ⟨rfl, hbehind⟩
      · exact Lexeme.startsName_of_isNameStart hname t
      · rw [Lexeme.startsName_backslash]
        exact htail.later.startsEscape hescape
      · rw [Lexeme.startsName_hyphen]
        rcases hbehind with hhyphen | hname | hescape
        · rcases htail.head? with hsame | hstop
          · simp [← hsame, hhyphen]
          · exact absurd (hstop _ hhyphen) (by decide)
        · simp [htail.startsWithNameStart hname]
        · simp [htail.startsEscape hescape]

theorem begins (h : Parts s' s) {x : Bytes} (hx : x <+: s') (hstops : ∀ c ∈ x, ¬IsStop c) :
    x <+: s := by
  induction x generalizing s s' with
  | nil => exact List.nil_prefix
  | cons c x ih =>
      rcases List.forall_mem_cons.mp hstops with ⟨hc, hstops⟩
      cases h with
      | ended hline => exact absurd (List.prefix_nil.mp hx) (List.cons_ne_nil c x)
      | here hstop hline =>
          rw [List.cons_prefix_cons] at hx
          exact absurd (hx.1 ▸ hstop) hc
      | later htail =>
          rw [List.cons_prefix_cons] at hx ⊢
          exact ⟨hx.1, ih htail hx.2 hstops⟩

theorem startsCdc (h : Parts s' s) (hstart : Lexeme.startsCdc s' = true) :
    Lexeme.startsCdc s = true := by
  rcases Lexeme.startsCdc_cases hstart with ⟨t, ht⟩
  rcases h.begins (x := [0x2D, 0x2D, 0x3E]) ⟨t, ht.symm⟩ (by simp [IsStop]) with ⟨t, rfl⟩
  rfl

theorem startsCdoTail (h : Parts s' s) (hstart : Lexeme.startsCdoTail s' = true) :
    Lexeme.startsCdoTail s = true := by
  rcases Lexeme.startsCdoTail_cases hstart with ⟨t, ht⟩
  rcases h.begins (x := [0x21, 0x2D, 0x2D]) ⟨t, ht.symm⟩ (by simp [IsStop]) with ⟨t, rfl⟩
  rfl

theorem startsWithDigit (h : Parts s' s) (hstart : Numeral.startsWithDigit s' = true) :
    Numeral.startsWithDigit s = true := by
  rw [Numeral.startsWithDigit_eq] at hstart ⊢
  exact h.any_head? ⟨rfl, rfl, rfl⟩ hstart

theorem startsFraction (h : Parts s' s) (hstart : Numeral.startsFraction s' = true) :
    Numeral.startsFraction s = true := by
  unfold Numeral.startsFraction at hstart
  split at hstart
  · cases h with
    | here hstop hline => exact absurd hstop (by decide)
    | later htail => exact htail.startsWithDigit hstart
  · cases hstart

theorem sign (h : Parts s' s) :
    (Numeral.startsWithDigit (Numeral.sign s').2 = false ∧
      Numeral.startsFraction (Numeral.sign s').2 = false) ∨
      Parts (Numeral.sign s').2 (Numeral.sign s).2 := by
  cases h with
  | ended hline => exact Or.inl ⟨rfl, rfl⟩
  | here hstop hline =>
      left
      rcases hstop with rfl | rfl | rfl <;> exact ⟨rfl, rfl⟩
  | later htail =>
      right
      simp only [Numeral.sign]
      split
      · exact htail
      · exact htail.later

theorem startsExponent (h : Parts s' s) (hstart : Numeral.startsExponent s' = true) :
    Numeral.startsExponent s = true := by
  cases h with
  | ended hline => cases hstart
  | here hstop hline => rcases hstop with rfl | rfl | rfl <;> cases hstart
  | later htail =>
      simp only [Numeral.startsExponent, Bool.and_eq_true] at hstart ⊢
      refine ⟨hstart.1, ?_⟩
      rcases htail.sign with ⟨hdigit, _⟩ | hparts
      · rw [hdigit] at hstart
        cases hstart.2
      · exact hparts.startsWithDigit hstart.2

theorem startsNumeral (h : Parts s' s) (hstart : Numeral.startsHere s' = true) :
    Numeral.startsHere s = true := by
  rw [Numeral.startsHere_eq, Bool.or_eq_true] at hstart ⊢
  rcases h.sign with ⟨hdigit, hfraction⟩ | hparts
  · rw [hdigit, hfraction] at hstart
    simp at hstart
  · exact hstart.imp hparts.startsWithDigit hparts.startsFraction

theorem name_read (h : Parts s' s) (hread : Reader.name.read s = none) :
    Reader.name.read s' = none := by
  cases h with
  | ended hline => rfl
  | here hstop hline =>
      apply Reader.name_read_none
      intro b hb
      cases hb
      rcases hstop with rfl | rfl | rfl <;> decide
  | later htail =>
      rename_i b t t'
      rw [Option.eq_none_iff_forall_ne_some]
      rintro ⟨p, rest⟩ hread'
      rcases Reader.name_read_cases hread' with ⟨c, rfl, hname, heq⟩ | hescape
      · obtain rfl : b = c := (List.cons.inj heq).1
        rw [Reader.name_read_of_isName t hname] at hread
        cases hread
      · have hfront := Escape.read_front hescape rest
        rw [Escape.read_raw_append hescape] at hfront
        rcases Option.isSome_iff_exists.mp
          (Escape.read_isSome (htail.later.startsEscape hfront)) with ⟨⟨q, after⟩, hsome⟩
        rw [Reader.name_read_of_escape hsome] at hread
        cases hread

theorem name_scan {x v : Bytes} (h : Parts s' s)
    (hscan : Reader.name.scan (x ++ s) = ⟨v, x, s⟩) :
    Reader.name.scan (x ++ s') = ⟨v, x, s'⟩ := by
  have hread := Reader.name.read_scan_rest (x ++ s)
  rw [hscan] at hread
  exact Reader.name.scan_of_keeps (Reader.name_keeps h.replaces) (h.name_read hread) hscan

end Parts

/-!
## Tokens in front of the place
-/

namespace Lexeme

variable {s s' : Bytes}

theorem StartsNamed.parts {x : Bytes} (hstart : StartsNamed (x ++ s)) {v : Bytes}
    (hscan : Reader.name.scan (x ++ s) = ⟨v, x, s⟩) (h : Parts s' s) : StartsNamed (x ++ s') :=
  ⟨startsName_again hstart.1 hscan s',
    Bool.eq_false_iff.mpr (mt (h.append x).startsCdc (Bool.eq_false_iff.mp hstart.2))⟩

theorem EndsDelim.of_parts {b : UInt8} (hlone : Lone b s) (h : Parts s' s) :
    EndsDelim b s' where
  name := Bool.eq_false_iff.mpr (mt h.later.startsName (Bool.eq_false_iff.mp hlone.name))
  numeral := Bool.eq_false_iff.mpr (mt h.later.startsNumeral (Bool.eq_false_iff.mp hlone.numeral))
  hash hb := h.name_read (hlone.hash hb)
  keyword hb := Bool.eq_false_iff.mpr (mt h.startsName (Bool.eq_false_iff.mp (hlone.keyword hb)))
  cdo hb := Bool.eq_false_iff.mpr (mt h.startsCdoTail (Bool.eq_false_iff.mp (hlone.cdo hb)))

theorem isClosed_of_parts {l : Lexeme} (hshape : Shape l s) (h : Parts s' s)
    (hkind : l.kind ≠ .badString) : l.IsClosed := by
  refine ⟨?_, hkind⟩
  cases hshape with
  | openString | openUrl | openBadUrl => exact absurd rfl h.ne_nil
  | _ => rfl

theorem Shape.parts {l : Lexeme} (hshape : Shape l s) (h : Parts s' s)
    (hargument : l.kind = .function -> opensAddress l.value s' = false) : Shape l s' := by
  have hagain : l.kind ≠ .badString -> l.Spares s' s -> Shape l s' := fun hkind =>
    hshape.again (isClosed_of_parts hshape h hkind)
  cases hshape with
  | whitespace hne hall hstop =>
      exact .whitespace hne hall (h.front hstop (by rintro c (rfl | rfl | rfl) <;> decide))
  | ident hstart hscan hparen =>
      exact .ident (hstart.parts hscan h) (h.name_scan hscan) (h.head?_ne hparen (by decide))
  | function hstart hscan _ => exact hagain nofun (hargument rfl)
  | atKeyword hstart hscan =>
      exact .atKeyword (startsName_again hstart hscan s') (h.name_scan hscan)
  | hash hstart hscan =>
      have hscan' := h.name_scan hscan
      have hne := ne_nil_of_scan hscan hstart
      exact .hash (Reader.name.read_isSome_of_scan hscan' hne) hscan'
  | number hstart hread hname hpercent =>
      rename_i n
      have hdigit := Numeral.read_stop hread
      refine hagain nofun ⟨⟨?_, h.startsFraction, h.startsExponent⟩, ?_, ?_⟩
      · exact Bool.eq_false_iff.mpr (mt h.startsWithDigit (Bool.eq_false_iff.mp hdigit))
      · exact Bool.eq_false_iff.mpr (mt h.startsName (Bool.eq_false_iff.mp hname))
      · exact h.head?_ne hpercent (by decide)
  | dimension hstart hread hname hscan =>
      rename_i n x v
      have hname' := startsName_again hname hscan s'
      have hends : Numeral.EndsAs (x ++ s') (x ++ s) :=
        endsAs_of_startsName hname' (h.append x).startsExponent
      have hread' := Numeral.read_again (numeral_ne_nil hstart hread) hread hends
      exact .dimension (Numeral.startsHere_again hstart hread _) hread' hname' (h.name_scan hscan)
  | badString hquote hscan =>
      rename_i q body v t
      cases h with
      | ended hline | here hstop hline => exact absurd rfl hline
      | later htail =>
          refine .badString hquote ((Reader.quoted q).scan_of_keeps ?_ ?_ hscan)
          · exact Reader.quoted_keeps (List.cons_ne_nil _ _) (Or.inl rfl)
          · simp [Reader.quoted]
  | openString | openUrl | openBadUrl => exact absurd rfl h.ne_nil
  | punctuation hmark => exact .punctuation hmark
  | delim hlone =>
      apply hagain nofun
      intro c hc
      obtain rfl := (List.cons.inj hc).1
      exact .of_parts hlone h
  | string | url | badUrl | percentage | cdc | cdo => exact hagain nofun trivial

theorem Stands.parts {l : Lexeme} (hstands : Stands l s) (h : Parts s' s)
    (hargument : l.kind = .function -> opensAddress l.value s' = false) : Stands l s' := by
  refine stands_of_shape (hstands.shape.parts h hargument) ?_
  intro hraw
  have hcomment := hstands.comment
  rw [hraw] at hcomment
  apply h.head?_ne ?_ (by decide)
  intro hhead
  rcases s with _ | ⟨c, t⟩
  · cases hhead
  · cases hhead
    cases hcomment

end Lexeme

/-!
## Comments in front of the place
-/

namespace Reader

theorem commentBody_read_cases {x s : Bytes} {p : Piece} (h : commentBody.read x = some (p, s)) :
    ∃ b, x = b :: s ∧ p = .plain b ∧ (b = 0x2A -> s.head? ≠ some 0x2F) := by
  simp only [commentBody] at h
  split at h
  · cases h
  · cases h
  · rename_i b t hnot
    cases h
    refine ⟨b, rfl, rfl, ?_⟩
    rintro rfl hhead
    rcases s with _ | ⟨c, t⟩
    · cases hhead
    · cases hhead
      exact hnot t rfl rfl

theorem commentBody_read_plain {b : UInt8} {s : Bytes} (h : b = 0x2A -> s.head? ≠ some 0x2F) :
    commentBody.read (b :: s) = some (.plain b, s) := by
  simp only [commentBody]
  split
  · rename_i heq
    cases heq
  · rename_i heq
    cases heq
    exact absurd rfl (h rfl)
  · rename_i heq
    cases heq
    rfl

theorem commentBody_read_none {s : Bytes} (hne : s ≠ []) (h : commentBody.read s = none) :
    ∃ t, s = 0x2A :: 0x2F :: t := by
  simp only [commentBody] at h
  split at h
  · exact absurd rfl hne
  · exact ⟨_, rfl⟩
  · cases h

theorem commentBody_keeps (s s' : Bytes) :
    commentBody.Keeps (0x2A :: s) (0x2A :: s') := by
  intro p x h
  rcases commentBody_read_cases h with ⟨b, heq, rfl, hstar⟩
  apply commentBody_read_plain
  intro hb
  have hhead := hstar hb
  cases x with
  | nil => exact nofun
  | cons c x => exact hhead

theorem comment_read_again {p : Piece} {s : Bytes} (hne : s ≠ [])
    (h : comment.read (p.raw ++ s) = some (p, s)) (s' : Bytes) :
    comment.read (p.raw ++ s') = some (p, s') := by
  simp only [comment] at h
  split at h
  · rename_i u heq
    simp only [Option.some.injEq, Prod.mk.injEq] at h
    rcases h with ⟨rfl, rfl⟩
    have happ := commentBody.scan_raw_append u
    have hread := commentBody.read_scan_rest u
    rcases commentBody_read_none (by rintro hnil; simp [hnil] at hne) hread with ⟨t, ht⟩
    have hscan : commentBody.scan ((commentBody.scan u).raw ++ 0x2A :: 0x2F :: t) =
        ⟨(commentBody.scan u).value, (commentBody.scan u).raw, 0x2A :: 0x2F :: t⟩ := by
      rw [← ht, happ]
    have hscan' := commentBody.scan_of_keeps (commentBody_keeps (0x2F :: t) (0x2F :: s')) rfl hscan
    rw [ht]
    simp [comment, hscan']
  · cases h

end Reader

/-!
## Tokens without their places
-/

namespace Token

open Lexeme

def lexemes (s : Bytes) : List Lexeme :=
  (tokenize s).map lexeme

theorem lexemes_streamFrom (offset : Nat) (s : Bytes) :
    (streamFrom offset s).map lexeme = lexemes s := by
  rw [streamFrom_eq_map, List.map_map]
  rfl

theorem lexemes_of_scan {s s' : Bytes}
    (h : (Reader.comment.scan s).rest = (Reader.comment.scan s').rest) :
    lexemes s = lexemes s' := by
  cases hrest : (Reader.comment.scan s').rest with
  | nil =>
      rw [lexemes, lexemes, tokenize, tokenize, streamFrom_nil 0 (h.trans hrest),
        streamFrom_nil 0 hrest]
      rfl
  | cons b rest =>
      rw [lexemes, lexemes, tokenize, tokenize, streamFrom_cons 0 (h.trans hrest),
        streamFrom_cons 0 hrest, List.map_cons, List.map_cons, lexemes_streamFrom,
        lexemes_streamFrom]
      rfl

theorem lexemes_comment {s rest : Bytes} {p : Piece} (h : Reader.comment.read s = some (p, rest)) :
    lexemes s = lexemes rest := by
  apply lexemes_of_scan
  rw [Reader.comment.scan_some h]

theorem lexemes_gap {gap s : Bytes} (h : Gap gap s) (hne : s ≠ []) (s' : Bytes) :
    lexemes (gap ++ s') = lexemes s' := by
  rcases h with ⟨v, hscan⟩
  induction hlength : gap.length using Nat.strongRecOn generalizing gap v with
  | ind n ih =>
    rcases Reader.comment.scan_cases hscan with ⟨rfl, _⟩ | ⟨p, y, w, rfl, _, hread, hscan'⟩
    · rfl
    · have hraw := List.length_pos_iff.mpr (Reader.comment.raw_ne_nil hread)
      rw [List.append_assoc, lexemes_comment (Reader.comment_read_again (by simp [hne]) hread _)]
      exact ih y.length (by simp at hlength; omega) w hscan' rfl

theorem stands_of_gap {gap s : Bytes} {l : Lexeme} (hgap : Gap gap (l.raw ++ s))
    (hshape : Shape l s) : Stands l s := by
  rcases hgap with ⟨v, hscan⟩
  have hread := Reader.comment.read_scan_rest (gap ++ (l.raw ++ s))
  rw [hscan] at hread
  exact ⟨hshape, hread⟩

theorem lexemes_stands {l : Lexeme} {s : Bytes} (h : Stands l s) :
    lexemes (l.raw ++ s) = l :: lexemes s := by
  rw [lexemes, tokenize, streamFrom_of_stands 0 h, List.map_cons, lexemes_streamFrom]
  rfl

end Token
end StyleTrim
