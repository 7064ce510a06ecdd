import StyleTrim.Proofs.Token.Context
import StyleTrim.Proofs.Token.Numerals
import StyleTrim.Token.Lexeme

/-!
# The shapes of lexemes

`Shape l s` says, rule by rule, what the lexeme `l` looks like when the text `s` follows it. It is
the reading of lexemes without the order in which the rules are tried: a lexeme is read in front of
a text exactly when it has one of the shapes there. Whether the same lexeme is read in front of
another text is then asked of one rule alone.
-/

namespace StyleTrim

/-!
## Classes of bytes
-/

namespace Byte

theorem isSpace_cases {b : UInt8} (h : isSpace b = true) :
    b = 0x20 ∨ b = 0x09 ∨ b = 0x0A ∨ b = 0x0D ∨ b = 0x0C := by
  simpa [isSpace, or_assoc] using h

theorem isQuote_cases {b : UInt8} (h : isQuote b = true) : b = 0x22 ∨ b = 0x27 := by
  simpa [isQuote] using h

theorem isSpace_of_isName {b : UInt8} (h : isName b = true) : isSpace b = false := by
  rw [Bool.eq_false_iff]
  intro hspace
  rcases isSpace_cases hspace with rfl | rfl | rfl | rfl | rfl <;> exact absurd h (by decide)

theorem isQuote_of_isName {b : UInt8} (h : isName b = true) : isQuote b = false := by
  rw [Bool.eq_false_iff]
  intro hquote
  rcases isQuote_cases hquote with rfl | rfl <;> exact absurd h (by decide)

theorem isName_of_isNameStart {b : UInt8} (h : isNameStart b = true) : isName b = true := by
  simp [isName, h]

theorem isName_of_isDigit {b : UInt8} (h : isDigit b = true) : isName b = true := by
  simp [isName, h]

theorem isDigit_of_isNameStart {b : UInt8} (h : isNameStart b = true) : isDigit b = false := by
  rw [Bool.eq_false_iff]
  intro hdigit
  simp only [isDigit, Bool.and_eq_true, decide_eq_true_eq, UInt8.le_iff_toNat_le] at hdigit
  simp only [isNameStart, isAlpha, isUpper, isLower, Bool.or_eq_true, Bool.and_eq_true,
    decide_eq_true_eq, beq_iff_eq, UInt8.le_iff_toNat_le, ← UInt8.toNat_inj] at h
  simp at hdigit h
  omega

end Byte

namespace Lexeme

/-!
## What a text begins with
-/

def startsCdc : Bytes -> Bool
  | 0x2D :: 0x2D :: 0x3E :: _ => true
  | _ => false

def startsCdoTail : Bytes -> Bool
  | 0x21 :: 0x2D :: 0x2D :: _ => true
  | _ => false

theorem startsName_cases {s : Bytes} (h : startsName s = true) :
    ∃ b t, s = b :: t ∧
      (Byte.isNameStart b = true ∨ (b = 0x5C ∧ Escape.startsHere s = true) ∨
        (b = 0x2D ∧ (t.head? = some 0x2D ∨ startsWithNameStart t = true ∨
          Escape.startsHere t = true))) := by
  unfold startsName at h
  split at h
  · exact ⟨_, _, rfl, Or.inr (Or.inr ⟨rfl, Or.inl rfl⟩)⟩
  · exact ⟨_, _, rfl, Or.inr (Or.inr ⟨rfl, Or.inr (Bool.or_eq_true_iff.mp h)⟩)⟩
  · rename_i hhyphen
    cases s with
    | nil => cases h
    | cons b t =>
        refine ⟨b, t, rfl, ?_⟩
        rcases Bool.or_eq_true_iff.mp h with hstart | hescape
        · exact Or.inl hstart
        · refine Or.inr (Or.inl ⟨?_, hescape⟩)
          unfold Escape.startsHere at hescape
          split at hescape
          · rename_i heq
            exact (List.cons.inj heq).1
          · cases hescape

theorem startsName_of_isNameStart {b : UInt8} (h : Byte.isNameStart b = true) (s : Bytes) :
    startsName (b :: s) = true := by
  unfold startsName
  split
  · rfl
  · rename_i heq
    rw [(List.cons.inj heq).1] at h
    exact absurd h (by decide)
  · exact Bool.or_eq_true_iff.mpr (Or.inl h)

theorem startsName_hyphen (s : Bytes) :
    startsName (0x2D :: s) =
      (s.head? == some 0x2D || startsWithNameStart s || Escape.startsHere s) := by
  unfold startsName
  split
  · rename_i heq
    obtain ⟨_, rfl⟩ := List.cons.inj heq
    rfl
  · rename_i hnot heq
    obtain ⟨_, rfl⟩ := List.cons.inj heq
    have hhead : s.head? ≠ some 0x2D := by
      intro hhead
      obtain ⟨t, rfl⟩ := List.head?_eq_some_iff.mp hhead
      exact hnot t rfl
    rw [beq_eq_false_iff_ne.mpr hhead, Bool.false_or]
  · rename_i hnot
    exact absurd rfl (hnot s)

theorem startsName_backslash (s : Bytes) :
    startsName (0x5C :: s) = Escape.startsHere (0x5C :: s) := by
  unfold startsName
  split
  · rename_i heq
    exact absurd (List.cons.inj heq).1 (by decide)
  · rename_i heq
    exact absurd (List.cons.inj heq).1 (by decide)
  · rfl

theorem startsHere_front {b : UInt8} {s : Bytes} (h : Numeral.startsHere (b :: s) = true) :
    Byte.isDigit b = true ∨ b = 0x2B ∨ b = 0x2D ∨ b = 0x2E := by
  rw [Numeral.startsHere_eq] at h
  by_cases hsign : b = 0x2B ∨ b = 0x2D
  · rcases hsign with rfl | rfl
    · exact Or.inr (Or.inl rfl)
    · exact Or.inr (Or.inr (Or.inl rfl))
  · have heq : (Numeral.sign (b :: s)).2 = b :: s := by simp [Numeral.sign, hsign]
    rw [heq] at h
    rcases Bool.or_eq_true_iff.mp h with hdigit | hfraction
    · exact Or.inl hdigit
    · unfold Numeral.startsFraction at hfraction
      split at hfraction
      · rename_i heq
        exact Or.inr (Or.inr (Or.inr (List.cons.inj heq).1))
      · cases hfraction

theorem startsName_of_startsHere {s : Bytes} (h : Numeral.startsHere s = true) :
    startsName s = false := by
  rw [Bool.eq_false_iff]
  intro hname
  obtain ⟨b, t, rfl, hstart | ⟨rfl, _⟩ | ⟨rfl, hnext⟩⟩ := startsName_cases hname
  · rcases startsHere_front h with hdigit | rfl | rfl | rfl
    · rw [Byte.isDigit_of_isNameStart hstart] at hdigit
      cases hdigit
    · exact absurd hstart (by decide)
    · exact absurd hstart (by decide)
    · exact absurd hstart (by decide)
  · exact absurd (startsHere_front h) (by decide)
  · rw [Numeral.startsHere_eq] at h
    have heq : (Numeral.sign (0x2D :: t)).2 = t := by simp [Numeral.sign]
    rw [heq] at h
    cases t with
    | nil => cases h
    | cons c t =>
        have hc : Byte.isDigit c = true ∨ c = 0x2E := by
          rcases Bool.or_eq_true_iff.mp h with hdigit | hfraction
          · exact Or.inl hdigit
          · unfold Numeral.startsFraction at hfraction
            split at hfraction
            · rename_i heq
              exact Or.inr (List.cons.inj heq).1
            · cases hfraction
        have hplain : c ≠ 0x2D ∧ Byte.isNameStart c = false ∧ c ≠ 0x5C := by
          rcases hc with hdigit | rfl
          · refine ⟨?_, ?_, ?_⟩
            · rintro rfl
              exact absurd hdigit (by decide)
            · rw [Bool.eq_false_iff]
              intro hstart
              rw [Byte.isDigit_of_isNameStart hstart] at hdigit
              cases hdigit
            · rintro rfl
              exact absurd hdigit (by decide)
          · decide
        rcases hnext with hhyphen | hstart | hescape
        · exact hplain.1 (Option.some.inj hhyphen)
        · simp [startsWithNameStart, hplain.2.1] at hstart
        · unfold Escape.startsHere at hescape
          split at hescape
          · rename_i heq
            exact hplain.2.2 (List.cons.inj heq).1
          · cases hescape

/-!
## Which rule applies

Each rule of `read` is reached by a condition on the text that no rule before it meets.
-/

theorem read_space {b : UInt8} (s : Bytes) (h : Byte.isSpace b = true) :
    read b s =
      (⟨.whitespace, [0x20], b :: s.takeWhile Byte.isSpace, false⟩,
        s.dropWhile Byte.isSpace) := by
  rw [read, if_pos h]

theorem read_quote {b : UInt8} (s : Bytes) (h : Byte.isQuote b = true) :
    read b s = readString b s := by
  rcases Byte.isQuote_cases h with rfl | rfl <;> rfl

theorem read_of_startsHere {b : UInt8} {s : Bytes} (h : Numeral.startsHere (b :: s) = true) :
    read b s = readNumeric (b :: s) := by
  rcases startsHere_front h with hdigit | rfl | rfl | rfl
  · have hname := Byte.isName_of_isDigit hdigit
    rw [read, if_neg (by simp [Byte.isSpace_of_isName hname]),
      if_neg (by simp [Byte.isQuote_of_isName hname]), if_pos hdigit]
  · change (if (_ ∧ _) then _ else _) = _
    rw [if_pos ⟨by decide, h⟩]
  · change readHyphen s = _
    unfold readHyphen
    split
    · cases h
    · rw [if_pos h]
  · change (if (_ ∧ _) then _ else _) = _
    rw [if_pos ⟨by decide, h⟩]

theorem read_of_startsName {b : UInt8} {s : Bytes} (h : startsName (b :: s) = true)
    (hcdc : startsCdc (b :: s) = false) : read b s = readNamed (b :: s) := by
  obtain ⟨c, t, heq, hcases⟩ := startsName_cases h
  obtain ⟨rfl, rfl⟩ := List.cons.inj heq
  rcases hcases with hstart | ⟨rfl, hescape⟩ | ⟨rfl, _⟩
  · have hname := Byte.isName_of_isNameStart hstart
    rw [read, if_neg (by simp [Byte.isSpace_of_isName hname]),
      if_neg (by simp [Byte.isQuote_of_isName hname]),
      if_neg (by simp [Byte.isDigit_of_isNameStart hstart]), if_pos hstart]
  · change (if (_ ∧ _) then _ else _) = _
    rw [if_pos ⟨rfl, hescape⟩]
  · have hnumeral : Numeral.startsHere (0x2D :: s) = false := by
      rw [Bool.eq_false_iff]
      intro hnumeral
      rw [startsName_of_startsHere hnumeral] at h
      cases h
    change readHyphen s = _
    unfold readHyphen
    split
    · cases hcdc
    · rw [if_neg (by simp [hnumeral]), if_pos h]

theorem punctuation?_cases {b : UInt8} {kind : TokenKind} (h : punctuation? b = some kind) :
    b = 0x28 ∨ b = 0x29 ∨ b = 0x2C ∨ b = 0x3A ∨ b = 0x3B ∨ b = 0x5B ∨ b = 0x5D ∨ b = 0x7B ∨
      b = 0x7D := by
  unfold punctuation? at h
  split at h <;> simp_all

def isMark (kind : TokenKind) : Bool :=
  [.leftParen, .rightParen, .comma, .colon, .semicolon, .leftBracket, .rightBracket, .leftBrace,
    .rightBrace].contains kind

theorem ne_of_punctuation {b : UInt8} {kind other : TokenKind} (h : punctuation? b = some kind)
    (hother : isMark other = false) : kind ≠ other := by
  rintro rfl
  rcases punctuation?_cases h with rfl | rfl | rfl | rfl | rfl | rfl | rfl | rfl | rfl <;>
  · cases h
    cases hother

theorem read_punctuation {b : UInt8} {kind : TokenKind} (s : Bytes)
    (h : punctuation? b = some kind) : read b s = (verbatim kind [b], s) := by
  rcases punctuation?_cases h with rfl | rfl | rfl | rfl | rfl | rfl | rfl | rfl | rfl <;>
  · cases h
    rfl

/-- The byte is not the start of anything longer than itself. -/
structure Lone (b : UInt8) (s : Bytes) : Prop where
  space : Byte.isSpace b = false
  quote : Byte.isQuote b = false
  mark : punctuation? b = none
  name : startsName (b :: s) = false
  numeral : Numeral.startsHere (b :: s) = false
  hash : b = 0x23 -> Reader.name.read s = none
  keyword : b = 0x40 -> startsName s = false
  cdo : b = 0x3C -> startsCdoTail s = false

def isSingle (b : UInt8) : Bool :=
  !(Byte.isSpace b || Byte.isQuote b || Byte.isDigit b || Byte.isNameStart b ||
    (punctuation? b).isSome || [0x23, 0x2B, 0x2D, 0x2E, 0x3C, 0x40, 0x5C].contains b)

theorem lone_of_isSingle {b : UInt8} (h : isSingle b = true) (s : Bytes) : Lone b s := by
  simp only [isSingle, Bool.not_eq_true', Bool.or_eq_false_iff, List.contains_eq_mem,
    decide_eq_false_iff_not, List.mem_cons, List.not_mem_nil, or_false, not_or,
    Option.isSome_eq_false_iff, Option.isNone_iff_eq_none] at h
  rcases h with ⟨⟨⟨⟨⟨hspace, hquote⟩, hdigit⟩, hname⟩, hmark⟩, hhash, hplus, hhyphen, hpoint,
    hless, hat, hslash⟩
  refine ⟨hspace, hquote, hmark, ?_, ?_, fun hb => absurd hb hhash, fun hb => absurd hb hat,
    fun hb => absurd hb hless⟩
  · rw [Bool.eq_false_iff]
    intro hstart
    rcases startsName_cases hstart with ⟨c, t, heq, hcases⟩
    rcases List.cons.inj heq with ⟨rfl, rfl⟩
    rcases hcases with hstart | ⟨hb, _⟩ | ⟨hb, _⟩
    · rw [hname] at hstart
      cases hstart
    · exact hslash hb
    · exact hhyphen hb
  · rw [Bool.eq_false_iff]
    intro hstart
    rcases startsHere_front hstart with hb | hb | hb | hb
    · rw [hdigit] at hb
      cases hb
    · exact hplus hb
    · exact hhyphen hb
    · exact hpoint hb

theorem read_lone {b : UInt8} {s : Bytes} (h : Lone b s) : read b s = (delim b, s) := by
  have hdigit : Byte.isDigit b = false := by
    rw [Bool.eq_false_iff]
    intro hdigit
    have hnumeral := h.numeral
    rw [startsHere_of_isDigit s hdigit] at hnumeral
    cases hnumeral
  have hstart : Byte.isNameStart b = false := by
    rw [Bool.eq_false_iff]
    intro hstart
    have hname := h.name
    rw [startsName_of_isNameStart hstart] at hname
    cases hname
  rw [read, if_neg (by simp [h.space]), if_neg (by simp [h.quote]), if_neg (by simp [hdigit]),
    if_neg (by simp [hstart])]
  simp only [h.mark]
  split
  · rename_i hb
    simp [readMarked, h.hash hb]
  · split
    · rename_i hb
      simp [readMarked, h.keyword hb]
    · split
      · rename_i hb
        subst hb
        unfold readHyphen
        split
        · have hname := h.name
          cases hname
        · rw [if_neg (by simp [h.numeral]), if_neg (by simp [h.name])]
      · split
        · rename_i hb
          subst hb
          unfold readLessThan
          split
          · have hcdo := h.cdo rfl
            cases hcdo
          · rfl
        · rw [if_neg (by simp [h.numeral]), if_neg]
          rintro ⟨rfl, hescape⟩
          have hname := h.name
          rw [startsName_backslash, hescape] at hname
          cases hname

/-!
## The shapes
-/

def opensAddress (name rest : Bytes) : Bool :=
  sameWord name (ascii "url") && !startsWithQuote (rest.dropWhile Byte.isSpace)

def StartsNamed (s : Bytes) : Prop :=
  startsName s = true ∧ startsCdc s = false

/-- The text `opening`, in front of `s`, opens an address: a name, a parenthesis and white
space. -/
structure AddressOpening (opening s : Bytes) : Prop where
  parts : ∃ x word gap, opening = x ++ 0x28 :: gap ∧ sameWord word (ascii "url") = true ∧
    gap.all Byte.isSpace = true ∧ StartsNamed (x ++ 0x28 :: (gap ++ s)) ∧
    Reader.name.scan (x ++ 0x28 :: (gap ++ s)) = ⟨word, x, 0x28 :: (gap ++ s)⟩
  stop : ∀ b ∈ s.head?, Byte.isSpace b = false ∧ Byte.isQuote b = false

inductive Shape : Lexeme -> Bytes -> Prop where
  | whitespace {x s : Bytes} (hne : x ≠ []) (hall : x.all Byte.isSpace = true)
      (hstop : ∀ b ∈ s.head?, Byte.isSpace b = false) :
      Shape ⟨.whitespace, [0x20], x, false⟩ s
  | string {q : UInt8} {body v s : Bytes} (hquote : Byte.isQuote q = true)
      (hscan : (Reader.quoted q).scan (body ++ q :: s) = ⟨v, body, q :: s⟩) :
      Shape ⟨.string, v, q :: (body ++ [q]), false⟩ s
  | openString {q : UInt8} {body v : Bytes} (hquote : Byte.isQuote q = true)
      (hscan : (Reader.quoted q).scan body = ⟨v, body, []⟩) :
      Shape ⟨.string, v, q :: body, true⟩ []
  | badString {q : UInt8} {body v s : Bytes} (hquote : Byte.isQuote q = true)
      (hscan : (Reader.quoted q).scan (body ++ 0x0A :: s) = ⟨v, body, 0x0A :: s⟩) :
      Shape ⟨.badString, v, q :: body, false⟩ (0x0A :: s)
  | ident {x v s : Bytes} (hstart : StartsNamed (x ++ s))
      (hscan : Reader.name.scan (x ++ s) = ⟨v, x, s⟩) (hparen : s.head? ≠ some 0x28) :
      Shape ⟨.ident, v, x, false⟩ s
  | function {x v s : Bytes} (hstart : StartsNamed (x ++ 0x28 :: s))
      (hscan : Reader.name.scan (x ++ 0x28 :: s) = ⟨v, x, 0x28 :: s⟩)
      (hargument : opensAddress v s = false) :
      Shape ⟨.function, v, x ++ [0x28], false⟩ s
  | url {opening body v gap s : Bytes}
      (hopen : AddressOpening opening (body ++ (gap ++ 0x29 :: s)))
      (hscan : Reader.address.scan (body ++ (gap ++ 0x29 :: s)) = ⟨v, body, gap ++ 0x29 :: s⟩)
      (hgap : gap.all Byte.isSpace = true) :
      Shape ⟨.url, v, opening ++ (body ++ (gap ++ [0x29])), false⟩ s
  | openUrl {opening body v gap : Bytes} (hopen : AddressOpening opening (body ++ gap))
      (hscan : Reader.address.scan (body ++ gap) = ⟨v, body, gap⟩)
      (hgap : gap.all Byte.isSpace = true) :
      Shape ⟨.url, v, opening ++ (body ++ gap), true⟩ []
  | badUrl {opening body v gap tail w s : Bytes}
      (hopen : AddressOpening opening (body ++ (gap ++ (tail ++ 0x29 :: s))))
      (hscan : Reader.address.scan (body ++ (gap ++ (tail ++ 0x29 :: s))) =
        ⟨v, body, gap ++ (tail ++ 0x29 :: s)⟩)
      (hgap : gap.all Byte.isSpace = true) (hne : tail ≠ [])
      (hstop : ∀ b ∈ tail.head?, Byte.isSpace b = false ∧ b ≠ 0x29)
      (htail : Reader.remnant.scan (tail ++ 0x29 :: s) = ⟨w, tail, 0x29 :: s⟩) :
      Shape ⟨.badUrl, v, opening ++ (body ++ (gap ++ (tail ++ [0x29]))), false⟩ s
  | openBadUrl {opening body v gap tail w : Bytes}
      (hopen : AddressOpening opening (body ++ (gap ++ tail)))
      (hscan : Reader.address.scan (body ++ (gap ++ tail)) = ⟨v, body, gap ++ tail⟩)
      (hgap : gap.all Byte.isSpace = true) (hne : tail ≠ [])
      (hstop : ∀ b ∈ tail.head?, Byte.isSpace b = false ∧ b ≠ 0x29)
      (htail : Reader.remnant.scan tail = ⟨w, tail, []⟩) :
      Shape ⟨.badUrl, v, opening ++ (body ++ (gap ++ tail)), true⟩ []
  | atKeyword {x v s : Bytes} (hstart : startsName (x ++ s) = true)
      (hscan : Reader.name.scan (x ++ s) = ⟨v, x, s⟩) :
      Shape ⟨.atKeyword, v, 0x40 :: x, false⟩ s
  | hash {x v s : Bytes} (hstart : (Reader.name.read (x ++ s)).isSome = true)
      (hscan : Reader.name.scan (x ++ s) = ⟨v, x, s⟩) :
      Shape ⟨.hash, v, 0x23 :: x, false⟩ s
  | number {n s : Bytes} (hstart : Numeral.startsHere (n ++ s) = true)
      (hread : Numeral.read (n ++ s) = (n, s)) (hname : startsName s = false)
      (hpercent : s.head? ≠ some 0x25) : Shape (verbatim .number n) s
  | percentage {n s : Bytes} (hstart : Numeral.startsHere (n ++ 0x25 :: s) = true)
      (hread : Numeral.read (n ++ 0x25 :: s) = (n, 0x25 :: s)) :
      Shape (verbatim .percentage (n ++ [0x25])) s
  | dimension {n x v s : Bytes} (hstart : Numeral.startsHere (n ++ (x ++ s)) = true)
      (hread : Numeral.read (n ++ (x ++ s)) = (n, x ++ s)) (hname : startsName (x ++ s) = true)
      (hscan : Reader.name.scan (x ++ s) = ⟨v, x, s⟩) :
      Shape ⟨.dimension, n ++ v, n ++ x, false⟩ s
  | punctuation {b : UInt8} {kind : TokenKind} {s : Bytes} (hmark : punctuation? b = some kind) :
      Shape (verbatim kind [b]) s
  | cdc {s : Bytes} : Shape (verbatim .cdc [0x2D, 0x2D, 0x3E]) s
  | cdo {s : Bytes} : Shape (verbatim .cdo [0x3C, 0x21, 0x2D, 0x2D]) s
  | delim {b : UInt8} {s : Bytes} (hlone : Lone b s) : Shape (delim b) s

/-!
## Every lexeme that is read has a shape
-/

theorem shape_of_readString {q : UInt8} {s rest : Bytes} {l : Lexeme}
    (hquote : Byte.isQuote q = true) (h : readString q s = (l, rest)) : Shape l rest := by
  have happ := (Reader.quoted q).scan_raw_append s
  have hread := (Reader.quoted q).read_scan_rest s
  obtain ⟨v, body, after, hscan⟩ : ∃ v body after, (Reader.quoted q).scan s = ⟨v, body, after⟩ :=
    ⟨_, _, _, rfl⟩
  simp only [readString, hscan] at h
  rw [hscan] at happ hread
  dsimp only at happ hread
  subst happ
  cases after with
  | nil =>
      cases h
      rw [List.append_nil] at hscan
      exact Shape.openString hquote hscan
  | cons b after =>
      dsimp only at h
      split at h
      · rename_i hb
        subst hb
        cases h
        exact Shape.string hquote hscan
      · rename_i hb
        cases h
        obtain rfl : b = 0x0A := (Reader.quoted_read_none hread).resolve_left hb
        exact Shape.badString hquote hscan

theorem shape_of_readBadAddress {opening body v gap s rest : Bytes} {l : Lexeme}
    (hopen : AddressOpening opening (body ++ (gap ++ s)))
    (hscan : Reader.address.scan (body ++ (gap ++ s)) = ⟨v, body, gap ++ s⟩)
    (hgap : gap.all Byte.isSpace = true) (hne : s ≠ [])
    (hstop : ∀ b ∈ s.head?, Byte.isSpace b = false ∧ b ≠ 0x29)
    (h : readBadAddress v (opening ++ body ++ gap) s = (l, rest)) : Shape l rest := by
  have happ := Reader.remnant.scan_raw_append s
  have hread := Reader.remnant.read_scan_rest s
  obtain ⟨w, tail, after, hscan'⟩ : ∃ w tail after, Reader.remnant.scan s = ⟨w, tail, after⟩ :=
    ⟨_, _, _, rfl⟩
  simp only [readBadAddress, hscan'] at h
  rw [hscan'] at happ hread
  dsimp only at happ hread
  cases after with
  | nil =>
      cases h
      rw [List.append_nil] at happ
      subst happ
      simp only [List.append_assoc]
      exact Shape.openBadUrl hopen hscan hgap hne hstop hscan'
  | cons b after =>
      cases h
      obtain rfl : b = 0x29 := by
        apply Classical.byContradiction
        intro hparen
        by_cases hslash : b = 0x5C
        · subst hslash
          cases rest with
          | nil => cases hread
          | cons c t =>
              by_cases hc : c = 0x0A
              · subst hc
                cases hread
              · rw [Reader.remnant_read_pair t hc] at hread
                cases hread
        · rw [Reader.remnant_read_plain rest hslash hparen] at hread
          cases hread
      subst happ
      simp only [List.append_assoc]
      apply Shape.badUrl hopen hscan hgap _ _ hscan'
      · rintro rfl
        exact (hstop 0x29 rfl).2 rfl
      · cases tail with
        | nil => exact absurd rfl (hstop 0x29 rfl).2
        | cons c tail => exact hstop

theorem takeWhile_all (s : Bytes) (p : UInt8 -> Bool) : (s.takeWhile p).all p = true :=
  List.all_takeWhile

theorem head?_dropWhile (s : Bytes) (p : UInt8 -> Bool) :
    ∀ b ∈ (s.dropWhile p).head?, p b = false := by
  intro b hb
  have h := List.head?_dropWhile_not p s
  rw [hb] at h
  simpa using h

theorem shape_of_readAddress {opening s rest : Bytes} {l : Lexeme}
    (hopen : AddressOpening opening s) (h : readAddress opening s = (l, rest)) :
    Shape l rest := by
  have happ := Reader.address.scan_raw_append s
  obtain ⟨v, body, after, hscan⟩ : ∃ v body after, Reader.address.scan s = ⟨v, body, after⟩ :=
    ⟨_, _, _, rfl⟩
  have hgap := takeWhile_all after Byte.isSpace
  have hspace := head?_dropWhile after Byte.isSpace
  have hsplit : after.takeWhile Byte.isSpace ++ after.dropWhile Byte.isSpace = after :=
    List.takeWhile_append_dropWhile
  simp only [readAddress, hscan] at h
  rw [hscan] at happ
  dsimp only at happ
  generalize after.takeWhile Byte.isSpace = gap at h hgap hsplit
  generalize after.dropWhile Byte.isSpace = tail at h hspace hsplit
  subst hsplit happ
  cases tail with
  | nil =>
      cases h
      rw [List.append_nil] at hopen hscan
      rw [List.append_assoc]
      exact Shape.openUrl hopen hscan hgap
  | cons b tail =>
      dsimp only at h
      split at h
      · rename_i hb
        subst hb
        cases h
        simp only [List.append_assoc]
        exact Shape.url hopen hscan hgap
      · rename_i hb
        apply shape_of_readBadAddress hopen hscan hgap (List.cons_ne_nil _ _) _ h
        intro c hc
        refine ⟨hspace c hc, ?_⟩
        obtain rfl : b = c := by simpa using hc
        exact hb

theorem shape_of_readNamed {s rest : Bytes} {l : Lexeme} (hstart : StartsNamed s)
    (h : readNamed s = (l, rest)) : Shape l rest := by
  have happ := Reader.name.scan_raw_append s
  obtain ⟨v, x, after, hscan⟩ : ∃ v x after, Reader.name.scan s = ⟨v, x, after⟩ :=
    ⟨_, _, _, rfl⟩
  rw [hscan] at happ
  dsimp only at happ
  subst happ
  simp only [readNamed, hscan] at h
  split at h
  · rename_i tail
    split at h
    · rename_i hurl
      obtain ⟨hword, hquote⟩ := Bool.and_eq_true_iff.mp hurl
      have hsplit : tail.takeWhile Byte.isSpace ++ tail.dropWhile Byte.isSpace = tail :=
        List.takeWhile_append_dropWhile
      apply shape_of_readAddress _ h
      refine ⟨⟨x, v, tail.takeWhile Byte.isSpace, by simp, hword, takeWhile_all _ _, ?_, ?_⟩, ?_⟩
      · rw [hsplit]
        exact hstart
      · rw [hsplit]
        exact hscan
      · intro b hb
        refine ⟨head?_dropWhile tail Byte.isSpace b hb, ?_⟩
        obtain ⟨t, ht⟩ := List.head?_eq_some_iff.mp hb
        simpa [ht, startsWithQuote] using hquote
    · rename_i hurl
      cases h
      apply Shape.function hstart hscan
      exact Bool.eq_false_iff.mpr hurl
  · rename_i hparen
    cases h
    apply Shape.ident hstart hscan
    intro hhead
    obtain ⟨t, rfl⟩ := List.head?_eq_some_iff.mp hhead
    exact hparen t rfl

theorem shape_of_readNumeric {s rest : Bytes} {l : Lexeme} (hstart : Numeral.startsHere s = true)
    (h : readNumeric s = (l, rest)) : Shape l rest := by
  have happ := Numeral.read_append s
  obtain ⟨n, after, hread⟩ : ∃ n after, Numeral.read s = (n, after) := ⟨_, _, rfl⟩
  rw [hread] at happ
  dsimp only at happ
  subst happ
  simp only [readNumeric, hread] at h
  split at h
  · rename_i hname
    have happ := Reader.name.scan_raw_append after
    obtain ⟨v, x, t, hscan⟩ : ∃ v x t, Reader.name.scan after = ⟨v, x, t⟩ := ⟨_, _, _, rfl⟩
    rw [hscan] at happ h
    dsimp only at happ h
    subst happ
    cases h
    exact Shape.dimension hstart hread hname hscan
  · rename_i hname
    split at h
    · cases h
      exact Shape.percentage hstart hread
    · rename_i hpercent
      cases h
      apply Shape.number hstart hread (by simpa using hname)
      intro hhead
      obtain ⟨t, rfl⟩ := List.head?_eq_some_iff.mp hhead
      exact hpercent t rfl

theorem startsCdc_cases {s : Bytes} (h : startsCdc s = true) :
    ∃ t, s = 0x2D :: 0x2D :: 0x3E :: t := by
  unfold startsCdc at h
  split at h
  · exact ⟨_, rfl⟩
  · cases h

theorem startsCdoTail_cases {s : Bytes} (h : startsCdoTail s = true) :
    ∃ t, s = 0x21 :: 0x2D :: 0x2D :: t := by
  unfold startsCdoTail at h
  split at h
  · exact ⟨_, rfl⟩
  · cases h

theorem name_scan_split (s : Bytes) :
    ∃ v x t, s = x ++ t ∧ Reader.name.scan (x ++ t) = ⟨v, x, t⟩ := by
  refine ⟨(Reader.name.scan s).value, (Reader.name.scan s).raw, (Reader.name.scan s).rest, ?_, ?_⟩
  · exact (Reader.name.scan_raw_append s).symm
  · rw [Reader.name.scan_raw_append s]

theorem shape_of_read {b : UInt8} {s rest : Bytes} {l : Lexeme} (h : read b s = (l, rest)) :
    Shape l rest := by
  by_cases hspace : Byte.isSpace b = true
  · rw [read_space s hspace] at h
    cases h
    apply Shape.whitespace (List.cons_ne_nil _ _)
    · simp [hspace]
    · exact head?_dropWhile s Byte.isSpace
  by_cases hquote : Byte.isQuote b = true
  · rw [read_quote s hquote] at h
    exact shape_of_readString hquote h
  by_cases hnumeral : Numeral.startsHere (b :: s) = true
  · rw [read_of_startsHere hnumeral] at h
    exact shape_of_readNumeric hnumeral h
  by_cases hcdc : startsCdc (b :: s) = true
  · obtain ⟨t, heq⟩ := startsCdc_cases hcdc
    cases heq
    cases h
    exact Shape.cdc
  by_cases hname : startsName (b :: s) = true
  · have hcdc' : startsCdc (b :: s) = false := by simpa using hcdc
    rw [read_of_startsName hname hcdc'] at h
    exact shape_of_readNamed ⟨hname, hcdc'⟩ h
  cases hmark : punctuation? b with
  | some kind =>
      rw [read_punctuation s hmark] at h
      cases h
      exact Shape.punctuation hmark
  | none =>
      by_cases hhash : b = 0x23 ∧ (Reader.name.read s).isSome = true
      · obtain ⟨rfl, hsome⟩ := hhash
        change readMarked .hash 0x23 (Reader.name.read s).isSome s = _ at h
        obtain ⟨v, x, t, rfl, hscan⟩ := name_scan_split s
        rw [hsome, readMarked, if_pos rfl, hscan] at h
        cases h
        exact Shape.hash hsome hscan
      by_cases hat : b = 0x40 ∧ startsName s = true
      · obtain ⟨rfl, hkeyword⟩ := hat
        change readMarked .atKeyword 0x40 (startsName s) s = _ at h
        obtain ⟨v, x, t, rfl, hscan⟩ := name_scan_split s
        rw [hkeyword, readMarked, if_pos rfl, hscan] at h
        cases h
        exact Shape.atKeyword hkeyword hscan
      by_cases hcdo : b = 0x3C ∧ startsCdoTail s = true
      · obtain ⟨rfl, htail⟩ := hcdo
        obtain ⟨t, rfl⟩ := startsCdoTail_cases htail
        cases h
        exact Shape.cdo
      have hlone : Lone b s := by
        refine ⟨by simpa using hspace, by simpa using hquote, hmark, by simpa using hname,
          by simpa using hnumeral, ?_, ?_, ?_⟩
        · intro hb
          simpa using fun hsome => hhash ⟨hb, hsome⟩
        · intro hb
          simpa using fun hkeyword => hat ⟨hb, hkeyword⟩
        · intro hb
          simpa using fun htail => hcdo ⟨hb, htail⟩
      rw [read_lone hlone] at h
      cases h
      exact Shape.delim hlone

/-!
## Every shape is read
-/

def Reads (l : Lexeme) (s : Bytes) : Prop :=
  ∃ b t, l.raw ++ s = b :: t ∧ read b t = (l, s)

theorem reads_of_startsName {l : Lexeme} {s : Bytes} (hstart : StartsNamed (l.raw ++ s))
    (h : readNamed (l.raw ++ s) = (l, s)) : Reads l s := by
  obtain ⟨b, t, heq, _⟩ := startsName_cases hstart.1
  refine ⟨b, t, heq, ?_⟩
  rw [heq] at hstart h
  rw [read_of_startsName hstart.1 hstart.2, h]

theorem reads_of_startsHere {l : Lexeme} {s : Bytes}
    (hstart : Numeral.startsHere (l.raw ++ s) = true)
    (h : readNumeric (l.raw ++ s) = (l, s)) : Reads l s := by
  cases heq : l.raw ++ s with
  | nil =>
      rw [heq] at hstart
      cases hstart
  | cons b t =>
      refine ⟨b, t, heq, ?_⟩
      rw [heq] at hstart h
      rw [read_of_startsHere hstart, h]

theorem takeWhile_append_of_stop {x s : Bytes} {p : UInt8 -> Bool} (hall : x.all p = true)
    (hstop : ∀ b ∈ s.head?, p b = false) : (x ++ s).takeWhile p = x := by
  rw [List.takeWhile_append_of_pos (List.all_eq_true.mp hall)]
  cases s with
  | nil => simp
  | cons b s => simp [hstop b rfl]

theorem dropWhile_append_of_stop {x s : Bytes} {p : UInt8 -> Bool} (hall : x.all p = true)
    (hstop : ∀ b ∈ s.head?, p b = false) : (x ++ s).dropWhile p = s := by
  rw [List.dropWhile_append_of_pos (List.all_eq_true.mp hall)]
  cases s with
  | nil => rfl
  | cons b s => simp [hstop b rfl]

theorem readNamed_paren {t v x rest : Bytes} (h : Reader.name.scan t = ⟨v, x, 0x28 :: rest⟩) :
    readNamed t =
      if opensAddress v rest then
        readAddress (x ++ [0x28] ++ rest.takeWhile Byte.isSpace) (rest.dropWhile Byte.isSpace)
      else (⟨.function, v, x ++ [0x28], false⟩, rest) := by
  unfold readNamed
  rw [h]
  rfl

theorem readNamed_plain {t v x rest : Bytes} (h : Reader.name.scan t = ⟨v, x, rest⟩)
    (hparen : rest.head? ≠ some 0x28) : readNamed t = (⟨.ident, v, x, false⟩, rest) := by
  unfold readNamed
  rw [h]
  dsimp only
  split
  · exact absurd rfl hparen
  · rfl

theorem readAddress_end {opening t v body gap : Bytes}
    (hscan : Reader.address.scan t = ⟨v, body, gap⟩) (hgap : gap.all Byte.isSpace = true) :
    readAddress opening t = (⟨.url, v, opening ++ body ++ gap, true⟩, []) := by
  have htake := takeWhile_append_of_stop (s := []) hgap (by simp)
  have hdrop := dropWhile_append_of_stop (s := []) hgap (by simp)
  rw [List.append_nil] at htake hdrop
  rw [readAddress, hscan]
  dsimp only
  rw [htake, hdrop]

theorem readAddress_stop {opening t v body gap rest : Bytes} {b : UInt8}
    (hscan : Reader.address.scan t = ⟨v, body, gap ++ b :: rest⟩)
    (hgap : gap.all Byte.isSpace = true) (hb : Byte.isSpace b = false) :
    readAddress opening t =
      if b = 0x29 then (⟨.url, v, opening ++ body ++ gap ++ [b], false⟩, rest)
      else readBadAddress v (opening ++ body ++ gap) (b :: rest) := by
  have hstop : ∀ c ∈ (b :: rest).head?, Byte.isSpace c = false := by
    intro c hc
    obtain rfl : b = c := by simpa using hc
    exact hb
  rw [readAddress, hscan]
  dsimp only
  rw [takeWhile_append_of_stop hgap hstop, dropWhile_append_of_stop hgap hstop]

theorem reads_of_opening {l : Lexeme} {opening t s : Bytes} (hopen : AddressOpening opening t)
    (hraw : l.raw ++ s = opening ++ t) (h : readAddress opening t = (l, s)) : Reads l s := by
  obtain ⟨⟨x, word, gap, rfl, hword, hgap, hstart, hscan⟩, hstop⟩ := hopen
  have hspace : ∀ b ∈ t.head?, Byte.isSpace b = false := fun b hb => (hstop b hb).1
  have hquote : startsWithQuote t = false := by
    cases t with
    | nil => rfl
    | cons b t => exact (hstop b rfl).2
  have htext : l.raw ++ s = x ++ 0x28 :: (gap ++ t) := by
    rw [hraw]
    simp
  apply reads_of_startsName
  · rw [htext]
    exact hstart
  · have hurl : opensAddress word (gap ++ t) = true := by
      rw [opensAddress, dropWhile_append_of_stop hgap hspace, hword, hquote]
      rfl
    rw [htext, readNamed_paren hscan, if_pos hurl, takeWhile_append_of_stop hgap hspace,
      dropWhile_append_of_stop hgap hspace]
    simpa using h

theorem reads_of_shape {l : Lexeme} {s : Bytes} (h : Shape l s) : Reads l s := by
  cases h with
  | whitespace hne hall hstop =>
      rename_i x
      cases x with
      | nil => exact absurd rfl hne
      | cons b x =>
          rw [List.all_cons, Bool.and_eq_true] at hall
          refine ⟨b, x ++ s, rfl, ?_⟩
          rw [read_space _ hall.1, takeWhile_append_of_stop hall.2 hstop,
            dropWhile_append_of_stop hall.2 hstop]
  | string hquote hscan =>
      rename_i q body v
      refine ⟨q, body ++ q :: s, by simp, ?_⟩
      rw [read_quote _ hquote, readString, hscan]
      simp
  | openString hquote hscan =>
      rename_i q body v
      refine ⟨q, body, by simp, ?_⟩
      rw [read_quote _ hquote, readString, hscan]
  | badString hquote hscan =>
      rename_i q body v s
      refine ⟨q, body ++ 0x0A :: s, by simp, ?_⟩
      have hq : (0x0A : UInt8) ≠ q := by
        rintro rfl
        exact absurd hquote (by decide)
      rw [read_quote _ hquote, readString, hscan]
      dsimp only
      rw [if_neg hq]
  | ident hstart hscan hparen =>
      exact reads_of_startsName hstart (readNamed_plain hscan hparen)
  | function hstart hscan hargument =>
      rename_i x v
      have htext : x ++ [0x28] ++ s = x ++ 0x28 :: s := by simp
      apply reads_of_startsName
      · dsimp only
        rw [htext]
        exact hstart
      · dsimp only
        rw [htext, readNamed_paren hscan, if_neg (by simp [hargument])]
  | url hopen hscan hgap =>
      apply reads_of_opening hopen
      · simp
      · rw [readAddress_stop hscan hgap rfl, if_pos rfl]
        simp
  | openUrl hopen hscan hgap =>
      apply reads_of_opening hopen
      · simp
      · rw [readAddress_end hscan hgap, List.append_assoc]
  | badUrl hopen hscan hgap hne hstop htail =>
      rename_i opening body v gap tail w
      obtain ⟨b, t, rfl⟩ := List.exists_cons_of_ne_nil hne
      have hb := hstop b rfl
      apply reads_of_opening hopen
      · simp
      · rw [List.cons_append] at hscan ⊢
        rw [readAddress_stop hscan hgap hb.1, if_neg hb.2, ← List.cons_append, readBadAddress,
          htail]
        simp
  | openBadUrl hopen hscan hgap hne hstop htail =>
      rename_i opening body v gap tail w
      obtain ⟨b, t, rfl⟩ := List.exists_cons_of_ne_nil hne
      have hb := hstop b rfl
      apply reads_of_opening hopen
      · simp
      · rw [readAddress_stop hscan hgap hb.1, if_neg hb.2, readBadAddress, htail]
        simp
  | atKeyword hstart hscan =>
      rename_i x v
      refine ⟨0x40, x ++ s, rfl, ?_⟩
      change readMarked .atKeyword 0x40 (startsName (x ++ s)) (x ++ s) = _
      rw [hstart, readMarked, hscan]
      rfl
  | hash hstart hscan =>
      rename_i x v
      refine ⟨0x23, x ++ s, rfl, ?_⟩
      change readMarked .hash 0x23 (Reader.name.read (x ++ s)).isSome (x ++ s) = _
      rw [hstart, readMarked, hscan]
      rfl
  | number hstart hread hname hpercent =>
      rename_i n
      apply reads_of_startsHere hstart
      simp only [verbatim, readNumeric, hread, hname]
      split
      · rename_i hfalse
        cases hfalse
      · split
        · exact absurd (by simp) hpercent
        · rfl
  | percentage hstart hread =>
      rename_i n
      have htext : (verbatim .percentage (n ++ [0x25])).raw ++ s = n ++ 0x25 :: s := by
        simp [verbatim]
      have hname : startsName (0x25 :: s) = false := rfl
      apply reads_of_startsHere
      · rw [htext]
        exact hstart
      · rw [htext]
        simp [readNumeric, hread, hname]
  | dimension hstart hread hname hscan =>
      rename_i n x v
      have htext : n ++ x ++ s = n ++ (x ++ s) := List.append_assoc n x s
      apply reads_of_startsHere
      · dsimp only
        rw [htext]
        exact hstart
      · dsimp only
        rw [htext]
        simp [readNumeric, hread, hname, hscan]
  | punctuation hmark =>
      rename_i b kind
      exact ⟨b, s, rfl, read_punctuation s hmark⟩
  | cdc => exact ⟨_, _, rfl, rfl⟩
  | cdo => exact ⟨_, _, rfl, rfl⟩
  | delim hlone =>
      rename_i b
      exact ⟨b, s, rfl, read_lone hlone⟩

theorem raw_ne_nil {l : Lexeme} {s : Bytes} (h : Shape l s) : l.raw ≠ [] := by
  obtain ⟨b, t, _, hread⟩ := reads_of_shape h
  have hne := (read_splits b t).2
  rw [hread] at hne
  exact hne

theorem reads_iff_shape {l : Lexeme} {s : Bytes} : Reads l s ↔ Shape l s := by
  constructor
  · rintro ⟨b, t, _, h⟩
    exact shape_of_read h
  · exact reads_of_shape

/-!
## What the kind tells
-/

variable {l : Lexeme} {s : Bytes}

/-- A lexeme of the kind of a single byte is that byte. -/
theorem raw_of_punctuation {b : UInt8} {kind : TokenKind} (h : Shape l s)
    (hmark : punctuation? b = some kind) (hkind : l.kind = kind) : l.raw = [b] := by
  cases h with
  | punctuation hmark' =>
      rename_i c kind'
      obtain rfl : kind' = kind := hkind
      rcases punctuation?_cases hmark with rfl | rfl | rfl | rfl | rfl | rfl | rfl | rfl | rfl <;>
      · cases hmark
        rcases punctuation?_cases hmark' with
          rfl | rfl | rfl | rfl | rfl | rfl | rfl | rfl | rfl <;>
          first | rfl | cases hmark'
  | _ => exact absurd hkind.symm (ne_of_punctuation hmark rfl)

theorem kind_ne_endOfText (h : Shape l s) : l.kind ≠ .endOfText := by
  cases h with
  | punctuation hmark => exact ne_of_punctuation hmark rfl
  | _ => nofun

theorem space_of_shape (h : Shape l s) (hkind : l.kind = .whitespace) :
    l.raw.all Byte.isSpace = true := by
  cases h with
  | whitespace _ hall _ => exact hall
  | punctuation hmark => exact absurd hkind (ne_of_punctuation hmark rfl)
  | _ => cases hkind

theorem startsNamed_of_ident (h : Shape l s) (hkind : l.kind = .ident) :
    StartsNamed (l.raw ++ s) := by
  cases h with
  | ident hstart _ _ => exact hstart
  | punctuation hmark => exact absurd hkind (ne_of_punctuation hmark rfl)
  | _ => cases hkind

theorem head_behind_ident (h : Shape l s) (hkind : l.kind = .ident) : s.head? ≠ some 0x28 := by
  cases h with
  | ident _ _ hparen => exact hparen
  | punctuation hmark => exact absurd hkind (ne_of_punctuation hmark rfl)
  | _ => cases hkind

theorem startsName_behind_number (h : Shape l s) (hkind : l.kind = .number) :
    startsName s = false := by
  cases h with
  | number _ _ hname _ => exact hname
  | punctuation hmark => exact absurd hkind (ne_of_punctuation hmark rfl)
  | _ => cases hkind

theorem lone_of_delim (h : Shape l s) (hkind : l.kind = .delim) : ∃ b, l = delim b ∧ Lone b s := by
  cases h with
  | delim hlone => exact ⟨_, rfl, hlone⟩
  | punctuation hmark => exact absurd hkind (ne_of_punctuation hmark rfl)
  | _ => cases hkind

theorem raw_of_delim (h : Shape l s) (hkind : l.kind = .delim) : l.raw = l.value := by
  rcases lone_of_delim h hkind with ⟨b, rfl, _⟩
  rfl

theorem terminated_of_shape (h : Shape l s)
    (hkind : l.kind ≠ .string ∧ l.kind ≠ .url ∧ l.kind ≠ .badUrl) : l.unterminated = false := by
  cases h with
  | openString => exact absurd rfl hkind.1
  | openUrl => exact absurd rfl hkind.2.1
  | openBadUrl => exact absurd rfl hkind.2.2
  | _ => rfl

end Lexeme
end StyleTrim
