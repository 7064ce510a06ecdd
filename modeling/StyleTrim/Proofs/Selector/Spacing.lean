import StyleTrim.Proofs.Token.Layout
import StyleTrim.Selector.Parser
import StyleTrim.Token.Written

/-!
# White space in selectors

Two runs of tokens that differ only in white space, and only where it means nothing in a selector,
are read as the same selectors, or not at all. The arguments of pseudo-classes are kept as text, so
they are compared without their white space.
-/

namespace StyleTrim

/-!
## Selectors without the white space of their arguments
-/

def squeeze (s : Bytes) : Bytes :=
  s.filter fun b => !Byte.isSpace b

theorem squeeze_append (s t : Bytes) : squeeze (s ++ t) = squeeze s ++ squeeze t :=
  List.filter_append ..

theorem squeeze_space {s : Bytes} (h : s.all Byte.isSpace = true) : squeeze s = [] := by
  rw [squeeze, List.filter_eq_nil_iff]
  intro b hb
  simp [List.all_eq_true.mp h b hb]

def Simple.squeeze : Simple -> Simple
  | .pseudoClass name argument => .pseudoClass name (StyleTrim.squeeze argument)
  | .pseudoElement name argument => .pseudoElement name (StyleTrim.squeeze argument)
  | s => s

def Compound.squeeze (c : Compound) : Compound :=
  c.map Simple.squeeze

def Complex.squeeze (c : Complex) : Complex :=
  ⟨Compound.squeeze c.first, c.more.map fun part => (part.1, Compound.squeeze part.2)⟩

def SelectorList.squeeze (list : SelectorList) : SelectorList :=
  list.map Complex.squeeze

namespace Simple

open Token

/-!
## The same tokens with other white space
-/

def AllSpace (gap : List Token) : Prop :=
  ∀ w ∈ gap, w.kind = .whitespace ∧ w.raw.all Byte.isSpace = true

def forgives (t : Token) : Bool :=
  t.kind == .comma || t.isCombinator || t.kind == .number || t.isDelim 0x2F || t.isDelim 0x23 ||
    t.isDelim 0x40 || t.isDelim 0x2D || t.isDelim 0x3C

def parts (t : Token) : Bool :=
  t.kind == .comma || t.isCombinator

def loose (left : Option Token) (t : Token) : Bool :=
  (left.all forgives || parts t) && !(left.any (fun l => l.isDelim 0x7E) && t.isDelim 0x3D)

/-- The tokens `us` are the tokens `ts` with other white space where it means nothing, behind the
visible token `left`. -/
inductive Respaced : Option Token -> List Token -> List Token -> Prop where
  | ends {left : Option Token} {gap gap' : List Token} (hgap : AllSpace gap)
      (hgap' : AllSpace gap') : Respaced left gap gap'
  | next {left : Option Token} {gap gap' ts us : List Token} {t u : Token} (hgap : AllSpace gap)
      (hgap' : AllSpace gap') (hspace : t.kind ≠ .whitespace) (hsame : u.lexeme = t.lexeme)
      (hloose : (gap = [] ↔ gap' = []) ∨ loose left t = true)
      (htail : Respaced (some t) ts us) : Respaced left (gap ++ t :: ts) (gap' ++ u :: us)

theorem allSpace_nil : AllSpace [] :=
  nofun

def Aligned (ts us : List Token) : Prop :=
  ∃ t u ts' us', ts = t :: ts' ∧ us = u :: us' ∧ t.kind ≠ .whitespace ∧ u.lexeme = t.lexeme ∧
    Respaced (some t) ts' us'

theorem skipSpace_gap {gap : List Token} (h : AllSpace gap) (ts : List Token) :
    skipSpace (gap ++ ts) = skipSpace ts := by
  rw [skipSpace, List.dropWhile_append_of_pos fun w hw => by simpa using (h w hw).1]
  rfl

theorem skipSpace_visible {t : Token} (ts : List Token) (h : t.kind ≠ .whitespace) :
    skipSpace (t :: ts) = t :: ts := by
  simp [skipSpace, h]

theorem Respaced.skipSpace {left : Option Token} {ts us : List Token} (h : Respaced left ts us) :
    (Simple.skipSpace ts = [] ∧ Simple.skipSpace us = []) ∨
      Aligned (Simple.skipSpace ts) (Simple.skipSpace us) := by
  cases h with
  | ends hgap hgap' =>
      left
      constructor
      · simpa [Simple.skipSpace] using skipSpace_gap hgap []
      · simpa [Simple.skipSpace] using skipSpace_gap hgap' []
  | next hgap hgap' hspace hsame hloose htail =>
      rename_i gap gap' ts us t u
      right
      have hspace' : u.kind ≠ .whitespace := by
        rw [show u.kind = t.kind from congrArg Lexeme.kind hsame]
        exact hspace
      rw [skipSpace_gap hgap, skipSpace_gap hgap', skipSpace_visible _ hspace,
        skipSpace_visible _ hspace']
      exact ⟨t, u, ts, us, rfl, rfl, hspace, hsame, htail⟩

def Dull (ts : List Token) : Prop :=
  ∀ t ∈ ts.head?, t.kind = .whitespace ∨ parts t = true

theorem Respaced.head {left : Token} {ts us : List Token} (h : Respaced (some left) ts us)
    (hfirm : forgives left = false) : Aligned ts us ∨ (Dull ts ∧ Dull us) := by
  have hgapDull : ∀ {gap : List Token} (ts : List Token), AllSpace gap -> gap ≠ [] ->
      Dull (gap ++ ts) := by
    intro gap ts hgap hne t ht
    cases gap with
    | nil => exact absurd rfl hne
    | cons w gap =>
        obtain rfl : w = t := by simpa using ht
        exact Or.inl (hgap w List.mem_cons_self).1
  cases h with
  | ends hgap hgap' =>
      right
      constructor
      · intro t ht
        exact Or.inl (hgap t (List.mem_of_mem_head? ht)).1
      · intro t ht
        exact Or.inl (hgap' t (List.mem_of_mem_head? ht)).1
  | next hgap hgap' hspace hsame hloose htail =>
      rename_i gap gap' ts us t u
      by_cases hempty : gap = [] ∧ gap' = []
      · rcases hempty with ⟨rfl, rfl⟩
        exact Or.inl ⟨t, u, ts, us, rfl, rfl, hspace, hsame, htail⟩
      · right
        by_cases hboth : gap ≠ [] ∧ gap' ≠ []
        · exact ⟨hgapDull _ hgap hboth.1, hgapDull _ hgap' hboth.2⟩
        · have hparts : parts t = true := by
            rcases hloose with hsame | hloose
            · exfalso
              by_cases hnil : gap = []
              · exact hempty ⟨hnil, hsame.mp hnil⟩
              · exact hboth ⟨hnil, fun hnil' => hnil (hsame.mpr hnil')⟩
            · simp only [loose, Option.all_some, hfirm, Bool.false_or, Bool.and_eq_true] at hloose
              exact hloose.1
          have hparts' : parts u = true := by
            rw [← hparts, parts, parts, isCombinator, isCombinator, Token.isDelim, Token.isDelim,
              Token.isDelim, Token.isDelim, Token.isDelim, Token.isDelim,
              show u.kind = t.kind from congrArg Lexeme.kind hsame,
              show u.value = t.value from congrArg Lexeme.value hsame]
          constructor
          · cases gap with
            | nil =>
                intro v hv
                obtain rfl : t = v := by simpa using hv
                exact Or.inr hparts
            | cons w gap => exact hgapDull _ hgap (List.cons_ne_nil _ _)
          · cases gap' with
            | nil =>
                intro v hv
                obtain rfl : u = v := by simpa using hv
                exact Or.inr hparts'
            | cons w gap' => exact hgapDull _ hgap' (List.cons_ne_nil _ _)

/-!
## Readings that agree
-/

inductive Agree : Read -> Read -> Prop where
  | error (e e' : SelectorError) : Agree (.error e) (.error e')
  | ok {s s' : Simple} {last : Token} {rest rest' : List Token} (hs : s'.squeeze = s.squeeze)
      (hfirm : forgives last = false) (hrest : Respaced (some last) rest rest') :
      Agree (.ok (s, rest)) (.ok (s', rest'))

variable {t u : Token} {ts us : List Token}

theorem kind_of_same (h : u.lexeme = t.lexeme) : u.kind = t.kind :=
  congrArg Lexeme.kind h

theorem value_of_same (h : u.lexeme = t.lexeme) : u.value = t.value :=
  congrArg Lexeme.value h

theorem raw_of_same (h : u.lexeme = t.lexeme) : u.raw = t.raw :=
  congrArg Lexeme.raw h

theorem isDelim_of_same (h : u.lexeme = t.lexeme) (b : UInt8) : u.isDelim b = t.isDelim b := by
  rw [Token.isDelim, Token.isDelim, kind_of_same h, value_of_same h]

theorem forgives_of_kind (h : t.kind ≠ .comma ∧ t.kind ≠ .number ∧ t.kind ≠ .delim) :
    forgives t = false := by
  simp [forgives, isCombinator, Token.isDelim, h]

theorem forgives_of_isDelim {b : UInt8} (h : t.isDelim b = true)
    (hb : [0x3E, 0x2B, 0x7E, 0x2F, 0x23, 0x40, 0x2D, 0x3C].contains b = false) :
    forgives t = false := by
  simp only [Token.isDelim, Bool.and_eq_true, beq_iff_eq] at h
  simpa [forgives, isCombinator, Token.isDelim, h.1, h.2, and_assoc] using hb

theorem Dull.kind (h : Dull (t :: ts)) :
    t.kind = .whitespace ∨ t.kind = .comma ∨ t.kind = .delim := by
  rcases h t rfl with hspace | hparts
  · exact Or.inl hspace
  · simp only [parts, isCombinator, Token.isDelim, Bool.or_eq_true, Bool.and_eq_true,
      beq_iff_eq] at hparts
    rcases hparts with hcomma | (hdelim | hdelim) | hdelim
    · exact Or.inr (Or.inl hcomma)
    · exact Or.inr (Or.inr hdelim.1)
    · exact Or.inr (Or.inr hdelim.1)
    · exact Or.inr (Or.inr hdelim.1)

theorem Dull.isDelim (h : Dull (t :: ts)) {b : UInt8}
    (hb : b ≠ 0x3E ∧ b ≠ 0x2B ∧ b ≠ 0x7E) : t.isDelim b = false := by
  rw [Bool.eq_false_iff]
  intro hdelim
  simp only [Token.isDelim, Bool.and_eq_true, beq_iff_eq] at hdelim
  rcases h t rfl with hspace | hparts
  · rw [hdelim.1] at hspace
    cases hspace
  · simp [parts, isCombinator, Token.isDelim, hdelim.1, hdelim.2, hb] at hparts

theorem Dull.ne {kind : TokenKind} (h : Dull (t :: ts))
    (hkind : kind ≠ .whitespace ∧ kind ≠ .comma ∧ kind ≠ .delim) : t.kind ≠ kind := by
  rintro rfl
  rcases h.kind with hspace | hcomma | hdelim
  · exact hkind.1 hspace
  · exact hkind.2.1 hcomma
  · exact hkind.2.2 hdelim

theorem isElement_of_same (h : u.lexeme = t.lexeme) : isElement u = isElement t := by
  rw [isElement, isElement, kind_of_same h, isDelim_of_same h]

theorem isBar_of_same (h : u.lexeme = t.lexeme) : isBar u = isBar t :=
  isDelim_of_same h _

theorem Dull.not_isElement (h : Dull (t :: ts)) : isElement t = false := by
  rw [isElement, h.isDelim (by decide), beq_eq_false_iff_ne.mpr (h.ne (by decide))]
  rfl

theorem Dull.not_isBar (h : Dull (t :: ts)) : isBar t = false :=
  h.isDelim (by decide)

theorem forgives_of_isElement (h : isElement t = true) : forgives t = false := by
  rcases Bool.or_eq_true_iff.mp h with hident | hdelim
  · exact forgives_of_kind (by simp [beq_iff_eq.mp hident])
  · exact forgives_of_isDelim hdelim (by decide)

theorem forgives_of_isBar (h : isBar t = true) : forgives t = false :=
  forgives_of_isDelim h (by decide)

/-- A reader that fails at dull tokens needs to be looked at only where both runs show the same
visible token. -/
theorem agree_of_aligned {read : List Token -> Read}
    (hdull : ∀ {ts : List Token}, Dull ts -> ∃ e, read ts = .error e)
    (hsame : ∀ {t u : Token} {ts us : List Token}, t.kind ≠ .whitespace -> u.lexeme = t.lexeme ->
      Respaced (some t) ts us -> Agree (read (t :: ts)) (read (u :: us)))
    (h : Aligned ts us ∨ (Dull ts ∧ Dull us)) : Agree (read ts) (read us) := by
  rcases h with ⟨t, u, ts, us, rfl, rfl, hspace, hlexeme, hrest⟩ | ⟨hts, hus⟩
  · exact hsame hspace hlexeme hrest
  · rcases hdull hts with ⟨e, he⟩
    rcases hdull hus with ⟨e', he'⟩
    rw [he, he']
    exact .error e e'

/-!
## Elements and classes
-/

theorem readElementName_agree (h : Aligned ts us ∨ (Dull ts ∧ Dull us)) :
    Agree (readElementName ts) (readElementName us) := by
  apply agree_of_aligned _ _ h
  · intro ts hts
    cases ts with
    | nil => exact ⟨_, rfl⟩
    | cons t ts =>
        rw [readElementName, if_neg (hts.ne (by decide)), hts.isDelim (by decide)]
        exact ⟨_, rfl⟩
  · intro t u ts us _ hsame hrest
    rw [readElementName, readElementName, kind_of_same hsame, value_of_same hsame,
      isDelim_of_same hsame]
    by_cases hident : t.kind = .ident
    · rw [if_pos hident, if_pos hident]
      exact .ok rfl (forgives_of_kind (by simp [hident])) hrest
    · rw [if_neg hident, if_neg hident]
      cases hstar : t.isDelim 0x2A with
      | true => exact .ok rfl (forgives_of_isDelim hstar (by decide)) hrest
      | false => exact .error _ _

theorem readClassName_agree (h : Aligned ts us ∨ (Dull ts ∧ Dull us)) :
    Agree (readClassName ts) (readClassName us) := by
  apply agree_of_aligned _ _ h
  · intro ts hts
    cases ts with
    | nil => exact ⟨_, rfl⟩
    | cons t ts => exact ⟨_, if_neg (hts.ne (by decide))⟩
  · intro t u ts us _ hsame hrest
    rw [readClassName, readClassName, kind_of_same hsame, value_of_same hsame]
    by_cases hident : t.kind = .ident
    · rw [if_pos hident, if_pos hident]
      exact .ok rfl (forgives_of_kind (by simp [hident])) hrest
    · rw [if_neg hident, if_neg hident]
      exact .error _ _

/-!
## Namespaces
-/

/-- What is asked of a token has the same answer for the same token, and is never true of one that
ends a simple selector. -/
structure Asks (p : Token -> Bool) : Prop where
  same : ∀ {t u : Token}, u.lexeme = t.lexeme -> p u = p t
  dull : ∀ {t : Token} {ts : List Token}, Dull (t :: ts) -> p t = false

theorem asks_isElement : Asks isElement :=
  ⟨isElement_of_same, Dull.not_isElement⟩

theorem asks_ident : Asks fun t => t.kind == .ident := by
  constructor
  · intro t u hsame
    rw [kind_of_same hsame]
  · intro t ts hdull
    exact beq_eq_false_iff_ne.mpr (hdull.ne (by decide))

/-- The tokens begin with a name. -/
def named (p : Token -> Bool) : List Token -> Bool
  | [] => false
  | name :: _ => p name

def qualified (p : Token -> Bool) : List Token -> Bool
  | [] => false
  | bar :: ts => isBar bar && named p ts

theorem dropElementNamespace_eq (t : Token) (ts : List Token) :
    dropElementNamespace (t :: ts) =
      if isBar t then ts
      else if isElement t && qualified isElement ts then ts.tail else t :: ts := by
  unfold dropElementNamespace
  match ts with
  | [] => simp [qualified]
  | [bar] => simp [qualified, named]
  | bar :: name :: rest => simp [qualified, named, and_assoc]

theorem dropAttributeNamespace_eq (t : Token) (ts : List Token) :
    dropAttributeNamespace (t :: ts) =
      if isBar t && named (fun t => t.kind == .ident) ts then ts
      else if isElement t && qualified (fun t => t.kind == .ident) ts then ts.tail
      else t :: ts := by
  unfold dropAttributeNamespace
  match ts with
  | [] => simp [qualified, named]
  | [bar] => simp [qualified, named]
  | bar :: name :: rest => simp [qualified, named, and_assoc]

theorem named_head {p : Token -> Bool} (hp : Asks p) (h : Aligned ts us ∨ (Dull ts ∧ Dull us)) :
    (named p ts = false ∧ named p us = false) ∨
      (named p ts = true ∧ named p us = true ∧ Aligned ts us) := by
  have hdull : ∀ {ts : List Token}, Dull ts -> named p ts = false := by
    intro ts hts
    cases ts with
    | nil => rfl
    | cons t ts => exact hp.dull hts
  rcases h with haligned | ⟨hts, hus⟩
  · have hsame : named p us = named p ts := by
      rcases haligned with ⟨t, u, ts, us, rfl, rfl, _, hsame, _⟩
      exact hp.same hsame
    cases hnamed : named p ts with
    | false => exact Or.inl ⟨rfl, hsame.trans hnamed⟩
    | true => exact Or.inr ⟨rfl, hsame.trans hnamed, haligned⟩
  · exact Or.inl ⟨hdull hts, hdull hus⟩

theorem qualified_head {p : Token -> Bool} (hp : Asks p)
    (h : Aligned ts us ∨ (Dull ts ∧ Dull us)) :
    (qualified p ts = false ∧ qualified p us = false) ∨
      (qualified p ts = true ∧ qualified p us = true ∧ Aligned ts.tail us.tail) := by
  have hdull : ∀ {ts : List Token}, Dull ts -> qualified p ts = false := by
    intro ts hts
    cases ts with
    | nil => rfl
    | cons t ts => rw [qualified, hts.not_isBar, Bool.false_and]
  rcases h with ⟨bar, bar', ts, us, rfl, rfl, _, hsame, hrest⟩ | ⟨hts, hus⟩
  · rw [qualified, qualified, isBar_of_same hsame]
    cases hbar : isBar bar with
    | false => exact Or.inl ⟨rfl, rfl⟩
    | true =>
        rcases named_head hp (hrest.head (forgives_of_isBar hbar)) with hno | hyes
        · exact Or.inl hno
        · exact Or.inr hyes
  · exact Or.inl ⟨hdull hts, hdull hus⟩

theorem dropElementNamespace_agree (hspace : t.kind ≠ .whitespace)
    (hbegin : isElement t = true ∨ isBar t = true) (hsame : u.lexeme = t.lexeme)
    (h : Respaced (some t) ts us) :
    Aligned (dropElementNamespace (t :: ts)) (dropElementNamespace (u :: us)) ∨
      (Dull (dropElementNamespace (t :: ts)) ∧ Dull (dropElementNamespace (u :: us))) := by
  have hfirm : forgives t = false := by
    rcases hbegin with helement | hbar
    · exact forgives_of_isElement helement
    · exact forgives_of_isBar hbar
  rw [dropElementNamespace_eq, dropElementNamespace_eq, isBar_of_same hsame,
    isElement_of_same hsame]
  cases isBar t with
  | true => exact h.head hfirm
  | false =>
      left
      rcases qualified_head asks_isElement (h.head hfirm) with ⟨hts, hus⟩ | ⟨hts, hus, haligned⟩
      · rw [hts, hus, Bool.and_false]
        exact ⟨t, u, ts, us, rfl, rfl, hspace, hsame, h⟩
      · rw [hts, hus, Bool.and_true]
        cases isElement t with
        | true => exact haligned
        | false => exact ⟨t, u, ts, us, rfl, rfl, hspace, hsame, h⟩

theorem dropAttributeNamespace_agree (hspace : t.kind ≠ .whitespace)
    (hsame : u.lexeme = t.lexeme) (h : Respaced (some t) ts us) :
    Aligned (dropAttributeNamespace (t :: ts)) (dropAttributeNamespace (u :: us)) := by
  have hstay : Aligned (t :: ts) (u :: us) := ⟨t, u, ts, us, rfl, rfl, hspace, hsame, h⟩
  rw [dropAttributeNamespace_eq, dropAttributeNamespace_eq, isBar_of_same hsame,
    isElement_of_same hsame]
  cases hbar : isBar t with
  | true =>
      have hfirm := forgives_of_isBar hbar
      have helement : isElement t = false := by
        simp only [isBar, Token.isDelim, Bool.and_eq_true, beq_iff_eq] at hbar
        simp [isElement, Token.isDelim, hbar.1, hbar.2]
      rw [helement, Bool.false_and, Bool.true_and, Bool.true_and]
      rcases named_head asks_ident (h.head hfirm) with ⟨hts, hus⟩ | ⟨hts, hus, haligned⟩
      · rw [hts, hus]
        exact hstay
      · rw [hts, hus]
        exact haligned
  | false =>
      rw [Bool.false_and, Bool.false_and]
      cases helement : isElement t with
      | false => exact hstay
      | true =>
          have hfirm := forgives_of_isElement helement
          rcases qualified_head asks_ident (h.head hfirm) with ⟨hts, hus⟩ | ⟨hts, hus, haligned⟩
          · rw [hts, hus]
            exact hstay
          · rw [hts, hus]
            exact haligned

/-!
## Pseudo-classes
-/

inductive AgreeArgument : Option (Bytes × List Token) -> Option (Bytes × List Token) -> Prop where
  | none : AgreeArgument none none
  | some {x x' : Bytes} {last : Token} {rest rest' : List Token}
      (hx : StyleTrim.squeeze x' = StyleTrim.squeeze x) (hfirm : forgives last = false)
      (hrest : Respaced (some last) rest rest') : AgreeArgument (some (x, rest)) (some (x', rest'))

theorem AgreeArgument.map {r r' : Option (Bytes × List Token)} (h : AgreeArgument r r')
    {x x' : Bytes} (hx : StyleTrim.squeeze x' = StyleTrim.squeeze x) :
    AgreeArgument (r.map fun r => (x ++ r.1, r.2)) (r'.map fun r => (x' ++ r.1, r.2)) := by
  cases h with
  | none => exact .none
  | some hy hfirm hrest =>
      refine .some ?_ hfirm hrest
      rw [squeeze_append, squeeze_append, hx, hy]

theorem readArgument_cons (depth : Nat) (t : Token) (ts : List Token) :
    readArgument depth (t :: ts) =
      if t.kind = .function ∨ t.kind = .leftParen then
        (readArgument (depth + 1) ts).map fun r => (t.raw ++ r.1, r.2)
      else if t.kind = .rightParen then
        match depth with
        | 0 => some ([], ts)
        | depth + 1 => (readArgument depth ts).map fun r => (t.raw ++ r.1, r.2)
      else (readArgument depth ts).map fun r => (t.raw ++ r.1, r.2) :=
  readArgument.eq_def depth (t :: ts)

theorem readArgument_gap {gap : List Token} (h : AllSpace gap) (depth : Nat) (ts : List Token) :
    ∃ x, StyleTrim.squeeze x = [] ∧
      readArgument depth (gap ++ ts) = (readArgument depth ts).map fun r => (x ++ r.1, r.2) := by
  induction gap with
  | nil => exact ⟨[], rfl, by simp⟩
  | cons w gap ih =>
      rcases ih fun v hv => h v (List.mem_cons_of_mem _ hv) with ⟨x, hx, hread⟩
      have hw := h w List.mem_cons_self
      refine ⟨w.raw ++ x, ?_, ?_⟩
      · rw [squeeze_append, squeeze_space hw.2, hx]
        rfl
      · rw [List.cons_append, readArgument_cons, if_neg (by simp [hw.1]),
          if_neg (by simp [hw.1]), hread,
          Option.map_map]
        simp [Function.comp_def]

theorem readArgument_agree {left : Option Token} (h : Respaced left ts us) (depth : Nat) :
    AgreeArgument (readArgument depth ts) (readArgument depth us) := by
  induction h generalizing depth with
  | ends hgap hgap' =>
      have hnone : ∀ {gap : List Token}, AllSpace gap -> readArgument depth gap = none := by
        intro gap hgap
        rcases readArgument_gap hgap depth [] with ⟨x, _, hread⟩
        rw [List.append_nil] at hread
        rw [hread]
        rfl
      rw [hnone hgap, hnone hgap']
      exact .none
  | next hgap hgap' hspace hsame hloose htail ih =>
      rename_i gap gap' ts us t u
      rcases readArgument_gap hgap depth (t :: ts) with ⟨x, hx, hread⟩
      rcases readArgument_gap hgap' depth (u :: us) with ⟨x', hx', hread'⟩
      have hraw : StyleTrim.squeeze u.raw = StyleTrim.squeeze t.raw := by
        rw [raw_of_same hsame]
      rw [hread, hread']
      apply AgreeArgument.map ?_ (hx'.trans hx.symm)
      rw [readArgument_cons, readArgument_cons, kind_of_same hsame]
      by_cases hopen : t.kind = .function ∨ t.kind = .leftParen
      · rw [if_pos hopen, if_pos hopen]
        exact (ih _).map hraw
      · rw [if_neg hopen, if_neg hopen]
        by_cases hclose : t.kind = .rightParen
        · rw [if_pos hclose, if_pos hclose]
          cases depth with
          | zero => exact .some rfl (forgives_of_kind (by simp [hclose])) htail
          | succ depth => exact (ih _).map hraw
        · rw [if_neg hclose, if_neg hclose]
          exact (ih _).map hraw

theorem readPseudoName_agree (doubled : Bool) (h : Aligned ts us ∨ (Dull ts ∧ Dull us)) :
    Agree (readPseudoName doubled ts) (readPseudoName doubled us) := by
  apply agree_of_aligned _ _ h
  · intro ts hts
    cases ts with
    | nil => exact ⟨_, rfl⟩
    | cons t ts =>
        rw [readPseudoName, if_neg (hts.ne (by decide)), if_neg (hts.ne (by decide))]
        exact ⟨_, rfl⟩
  · intro t u ts us _ hsame hrest
    rw [readPseudoName, readPseudoName, kind_of_same hsame, value_of_same hsame]
    by_cases hident : t.kind = .ident
    · have hfirm : forgives t = false := forgives_of_kind (by simp [hident])
      rw [if_pos hident, if_pos hident]
      split
      · exact .ok rfl hfirm hrest
      · exact .ok rfl hfirm hrest
    · rw [if_neg hident, if_neg hident]
      by_cases hfunction : t.kind = .function
      · rw [if_pos hfunction, if_pos hfunction]
        have hargument := readArgument_agree hrest 0
        generalize readArgument 0 ts = r, readArgument 0 us = r' at hargument
        cases hargument with
        | none => exact .error _ _
        | some hx hfirm hrest =>
            cases doubled with
            | true => exact .ok (by simp [Simple.squeeze, hx]) hfirm hrest
            | false => exact .ok (by simp [Simple.squeeze, hx]) hfirm hrest
      · rw [if_neg hfunction, if_neg hfunction]
        exact .error _ _

theorem readPseudo_agree (h : Aligned ts us ∨ (Dull ts ∧ Dull us)) :
    Agree (readPseudo ts) (readPseudo us) := by
  apply agree_of_aligned _ _ h
  · intro ts hts
    cases ts with
    | nil => exact ⟨_, rfl⟩
    | cons t ts =>
        rw [readPseudo, if_neg (hts.ne (by decide)), readPseudoName, if_neg (hts.ne (by decide)),
          if_neg (hts.ne (by decide))]
        exact ⟨_, rfl⟩
  · intro t u ts us hspace hsame hrest
    rw [readPseudo, readPseudo, kind_of_same hsame]
    by_cases hcolon : t.kind = .colon
    · rw [if_pos hcolon, if_pos hcolon]
      exact readPseudoName_agree true (hrest.head (forgives_of_kind (by simp [hcolon])))
    · rw [if_neg hcolon, if_neg hcolon]
      exact readPseudoName_agree false (Or.inl ⟨t, u, ts, us, rfl, rfl, hspace, hsame, hrest⟩)

/-!
## Attributes
-/

def Meet (ts us : List Token) : Prop :=
  (ts = [] ∧ us = []) ∨ Aligned ts us

inductive AgreeOperator : Except SelectorError (AttributeOperator × List Token) ->
    Except SelectorError (AttributeOperator × List Token) -> Prop where
  | error (e e' : SelectorError) : AgreeOperator (.error e) (.error e')
  | ok {op : AttributeOperator} {left : Option Token} {rest rest' : List Token}
      (hrest : Respaced left rest rest') : AgreeOperator (.ok (op, rest)) (.ok (op, rest'))

def isEquals (t : Token) : Bool :=
  t.isDelim 0x3D

theorem asks_isEquals : Asks isEquals :=
  ⟨fun hsame => isDelim_of_same hsame _, fun hdull => hdull.isDelim (by decide)⟩

theorem readOperator_eq (t : Token) (ts : List Token) :
    readOperator (t :: ts) =
      if t.kind ≠ .delim then .error .attributeOperator
      else if t.value = [0x3D] then .ok (.equals, ts)
      else
        match operatorOf? t.value with
        | none => .error (.unknownOperator t.value)
        | some op =>
            if named isEquals ts then .ok (op, ts.tail) else .error (.unknownOperator t.value) := by
  unfold readOperator
  dsimp only
  cases operatorOf? t.value with
  | none => rfl
  | some op =>
      cases ts with
      | nil => rfl
      | cons eq rest => rfl

theorem not_named_isEquals {gap : List Token} (hgap : AllSpace gap)
    (hts : gap = [] -> named isEquals ts = false) : named isEquals (gap ++ ts) = false := by
  cases gap with
  | nil => exact hts rfl
  | cons w gap =>
      have hw := (hgap w List.mem_cons_self).1
      simp [named, isEquals, Token.isDelim, hw]

theorem forgives_of_operatorOf? (hkind : t.kind = .delim) {op : AttributeOperator}
    (hop : operatorOf? t.value = some op) (htilde : t.value ≠ [0x7E]) : forgives t = false := by
  unfold operatorOf? at hop
  split at hop
  · rename_i hvalue
    exact absurd hvalue htilde
  · rename_i hvalue
    exact forgives_of_isDelim (by simp [Token.isDelim, hkind, hvalue]; rfl) (by decide)
  · rename_i hvalue
    exact forgives_of_isDelim (by simp [Token.isDelim, hkind, hvalue]; rfl) (by decide)
  · rename_i hvalue
    exact forgives_of_isDelim (by simp [Token.isDelim, hkind, hvalue]; rfl) (by decide)
  · rename_i hvalue
    exact forgives_of_isDelim (by simp [Token.isDelim, hkind, hvalue]; rfl) (by decide)
  · cases hop

theorem named_isEquals_tilde (htilde : t.isDelim 0x7E = true) (h : Respaced (some t) ts us) :
    (named isEquals ts = false ∧ named isEquals us = false) ∨
      (named isEquals ts = true ∧ named isEquals us = true ∧ Aligned ts us) := by
  cases h with
  | ends hgap hgap' =>
      left
      rw [← List.append_nil ts, ← List.append_nil us]
      exact ⟨not_named_isEquals hgap fun _ => rfl, not_named_isEquals hgap' fun _ => rfl⟩
  | next hgap hgap' hspace hsame hloose htail =>
      rename_i gap gap' ts us v v'
      have haligned : Aligned (v :: ts) (v' :: us) :=
        ⟨v, v', ts, us, rfl, rfl, hspace, hsame, htail⟩
      rcases hloose with hiff | hloose
      · by_cases hnil : gap = []
        · rw [hnil, hiff.mp hnil]
          exact named_head asks_isEquals (Or.inl haligned)
        · left
          exact ⟨not_named_isEquals hgap fun h => absurd h hnil,
            not_named_isEquals hgap' fun h => absurd (hiff.mpr h) hnil⟩
      · have hv : isEquals v = false := by
          rw [loose, Option.any_some, htilde, Bool.true_and, Bool.and_eq_true] at hloose
          simpa [isEquals] using hloose.2
        have hv' : isEquals v' = false := (asks_isEquals.same hsame).trans hv
        exact Or.inl ⟨not_named_isEquals hgap fun _ => hv, not_named_isEquals hgap' fun _ => hv'⟩

theorem named_isEquals (hkind : t.kind = .delim) {op : AttributeOperator}
    (hop : operatorOf? t.value = some op) (h : Respaced (some t) ts us) :
    (named isEquals ts = false ∧ named isEquals us = false) ∨
      (named isEquals ts = true ∧ named isEquals us = true ∧ Aligned ts us) := by
  by_cases htilde : t.value = [0x7E]
  · exact named_isEquals_tilde (by simp [Token.isDelim, hkind, htilde]) h
  · exact named_head asks_isEquals (h.head (forgives_of_operatorOf? hkind hop htilde))

theorem readOperator_agree (h : Aligned ts us) :
    AgreeOperator (readOperator ts) (readOperator us) := by
  rcases h with ⟨t, u, ts, us, rfl, rfl, _, hsame, hrest⟩
  rw [readOperator_eq, readOperator_eq, kind_of_same hsame, value_of_same hsame]
  by_cases hkind : t.kind = .delim
  · have hdelim : ¬t.kind ≠ .delim := not_not_intro hkind
    rw [if_neg hdelim, if_neg hdelim]
    by_cases hequals : t.value = [0x3D]
    · rw [if_pos hequals, if_pos hequals]
      exact .ok hrest
    · rw [if_neg hequals, if_neg hequals]
      cases hop : operatorOf? t.value with
      | none => exact .error _ _
      | some op =>
          rcases named_isEquals hkind hop hrest with ⟨hts, hus⟩ | ⟨hts, hus, haligned⟩
          · simp only [hts, hus]
            exact .error _ _
          · simp only [hts, hus]
            rcases haligned with ⟨v, v', ts, us, rfl, rfl, _, _, hrest⟩
            exact .ok hrest
  · rw [if_pos hkind, if_pos hkind]
    exact .error _ _

theorem closeAttribute_agree {s : Simple} (h : Meet ts us) :
    Agree (closeAttribute s ts) (closeAttribute s us) := by
  rcases h with ⟨rfl, rfl⟩ | ⟨t, u, ts, us, rfl, rfl, _, hsame, hrest⟩
  · exact .error _ _
  · rw [closeAttribute, closeAttribute, kind_of_same hsame]
    by_cases hclose : t.kind = .rightBracket
    · rw [if_pos hclose, if_pos hclose]
      exact .ok rfl (forgives_of_kind (by simp [hclose])) hrest
    · rw [if_neg hclose, if_neg hclose]
      exact .error _ _

theorem dropCaseMark_meet (h : Meet ts us) : Meet (dropCaseMark ts) (dropCaseMark us) := by
  rcases h with ⟨rfl, rfl⟩ | ⟨t, u, ts, us, rfl, rfl, hspace, hsame, hrest⟩
  · exact Or.inl ⟨rfl, rfl⟩
  · have hmark : isCaseMark u = isCaseMark t := by
      rw [isCaseMark, isCaseMark, kind_of_same hsame, value_of_same hsame]
    rw [dropCaseMark, dropCaseMark, hmark]
    cases isCaseMark t with
    | true => exact hrest.skipSpace
    | false => exact Or.inr ⟨t, u, ts, us, rfl, rfl, hspace, hsame, hrest⟩

theorem readAttributeValue_agree (name : Bytes) (op : AttributeOperator) (h : Meet ts us) :
    Agree (readAttributeValue name op ts) (readAttributeValue name op us) := by
  rcases h with ⟨rfl, rfl⟩ | ⟨t, u, ts, us, rfl, rfl, _, hsame, hrest⟩
  · exact .error _ _
  · have hvalue : isAttributeValue u = isAttributeValue t := by
      rw [isAttributeValue, isAttributeValue, kind_of_same hsame]
    rw [readAttributeValue, readAttributeValue, hvalue, value_of_same hsame]
    cases isAttributeValue t with
    | true => exact closeAttribute_agree (dropCaseMark_meet hrest.skipSpace)
    | false => exact .error _ _

theorem readAttributeTest_agree (name : Bytes) (h : Meet ts us) :
    Agree (readAttributeTest name ts) (readAttributeTest name us) := by
  rcases h with ⟨rfl, rfl⟩ | haligned
  · exact .error _ _
  · have hoperator := readOperator_agree haligned
    rcases haligned with ⟨t, u, ts, us, rfl, rfl, _, hsame, hrest⟩
    rw [readAttributeTest, readAttributeTest, kind_of_same hsame]
    by_cases hclose : t.kind = .rightBracket
    · rw [if_pos hclose, if_pos hclose]
      exact .ok rfl (forgives_of_kind (by simp [hclose])) hrest
    · rw [if_neg hclose, if_neg hclose]
      generalize readOperator (t :: ts) = r, readOperator (u :: us) = r' at hoperator
      cases hoperator with
      | error e e' => exact .error _ _
      | ok hrest => exact readAttributeValue_agree _ _ hrest.skipSpace

theorem readAttribute_agree {left : Option Token} (h : Respaced left ts us) :
    Agree (readAttribute ts) (readAttribute us) := by
  rw [readAttribute, readAttribute]
  rcases h.skipSpace with ⟨hts, hus⟩ | ⟨t, u, ts', us', hts, hus, hspace, hsame, hrest⟩
  · rw [hts, hus]
    exact .error _ _
  · rw [hts, hus]
    rcases dropAttributeNamespace_agree hspace hsame hrest with
      ⟨v, v', vs, vs', hv, hv', _, hsame, hrest⟩
    rw [hv, hv']
    simp only [kind_of_same hsame, value_of_same hsame]
    by_cases hident : v.kind = .ident
    · rw [if_pos hident, if_pos hident]
      exact readAttributeTest_agree _ hrest.skipSpace
    · rw [if_neg hident, if_neg hident]
      exact .error _ _

/-!
## Simple selectors
-/

theorem read?_dull {last : Option Simple} (h : Dull (t :: ts)) : read? last t ts = none := by
  rw [read?, h.not_isElement, h.not_isBar, h.isDelim (by decide), h.isDelim (by decide),
    if_neg (h.ne (by decide)), if_neg (h.ne (by decide)), if_neg (h.ne (by decide))]
  rfl

theorem read?_agree {last last' : Option Simple} (hlast : allowsElement last' = allowsElement last)
    (hspace : t.kind ≠ .whitespace) (hsame : u.lexeme = t.lexeme) (h : Respaced (some t) ts us) :
    Option.Rel Agree (read? last t ts) (read? last' u us) := by
  rw [read?, read?, isElement_of_same hsame, isBar_of_same hsame, hlast, kind_of_same hsame,
    isDelim_of_same hsame, isDelim_of_same hsame, value_of_same hsame]
  by_cases hbegin : (isElement t || isBar t) = true
  · rw [if_pos hbegin, if_pos hbegin]
    by_cases hallows : (isBar t || allowsElement last) = true
    · rw [if_pos hallows, if_pos hallows]
      exact .some (readElementName_agree
        (dropElementNamespace_agree hspace (Bool.or_eq_true_iff.mp hbegin) hsame h))
    · rw [if_neg hallows, if_neg hallows]
      exact .some (.error _ _)
  rw [if_neg hbegin, if_neg hbegin]
  by_cases hnesting : t.isDelim 0x26 = true
  · rw [if_pos hnesting, if_pos hnesting]
    exact .some (.ok rfl (forgives_of_isDelim hnesting (by decide)) h)
  rw [if_neg hnesting, if_neg hnesting]
  by_cases hclass : t.isDelim 0x2E = true
  · rw [if_pos hclass, if_pos hclass]
    exact .some (readClassName_agree (h.head (forgives_of_isDelim hclass (by decide))))
  rw [if_neg hclass, if_neg hclass]
  by_cases hid : t.kind = .hash
  · rw [if_pos hid, if_pos hid]
    exact .some (.ok rfl (forgives_of_kind (by simp [hid])) h)
  rw [if_neg hid, if_neg hid]
  by_cases hattribute : t.kind = .leftBracket
  · rw [if_pos hattribute, if_pos hattribute]
    exact .some (readAttribute_agree h)
  rw [if_neg hattribute, if_neg hattribute]
  by_cases hpseudo : t.kind = .colon
  · rw [if_pos hpseudo, if_pos hpseudo]
    exact .some (readPseudo_agree (h.head (forgives_of_kind (by simp [hpseudo]))))
  rw [if_neg hpseudo, if_neg hpseudo]
  exact .none

theorem allowsElement_squeeze {last last' : Option Simple}
    (h : last'.map Simple.squeeze = last.map Simple.squeeze) :
    allowsElement last' = allowsElement last := by
  have hsqueeze : ∀ last : Option Simple, allowsElement (last.map Simple.squeeze) =
      allowsElement last := by
    intro last
    cases last with
    | none => rfl
    | some s => cases s <;> rfl
  rw [← hsqueeze last', h, hsqueeze]

end Simple

namespace Selector

open Simple

variable {t u : Token} {ts us : List Token}

/-!
## Compound selectors
-/

theorem collectCompound_none {taken : Compound} (h : read? taken.head? t ts = none) :
    collectCompound taken (t :: ts) = .ok (taken.reverse, t :: ts) := by
  rw [collectCompound]
  split
  · rfl
  · rename_i hread
    rw [h] at hread
    cases hread
  · rename_i hread
    rw [h] at hread
    cases hread

theorem collectCompound_error {taken : Compound} {e : SelectorError}
    (h : read? taken.head? t ts = some (.error e)) :
    collectCompound taken (t :: ts) = .error e := by
  rw [collectCompound]
  split
  · rename_i hread
    rw [h] at hread
    cases hread
  · rename_i hread
    rw [h] at hread
    cases hread
    rfl
  · rename_i hread
    rw [h] at hread
    cases hread

theorem collectCompound_some {taken : Compound} {s : Simple} {rest : List Token}
    (h : read? taken.head? t ts = some (.ok (s, rest))) :
    collectCompound taken (t :: ts) = collectCompound (s :: taken) rest := by
  rw [collectCompound]
  split
  · rename_i hread
    rw [h] at hread
    cases hread
  · rename_i hread
    rw [h] at hread
    cases hread
  · rename_i hread
    rw [h] at hread
    cases hread
    rfl

inductive AgreeCompound : Except SelectorError (Compound × List Token) ->
    Except SelectorError (Compound × List Token) -> Prop where
  | error (e e' : SelectorError) : AgreeCompound (.error e) (.error e')
  | ok {c c' : Compound} {rest rest' : List Token} (hc : c'.squeeze = c.squeeze)
      (hrest : c ≠ [] -> ∃ last, forgives last = false ∧ Respaced (some last) rest rest') :
      AgreeCompound (.ok (c, rest)) (.ok (c', rest'))

theorem squeeze_reverse {c c' : Compound} (h : c'.squeeze = c.squeeze) :
    Compound.squeeze c'.reverse = Compound.squeeze c.reverse := by
  unfold Compound.squeeze at h ⊢
  rw [List.map_reverse, List.map_reverse, h]

theorem head?_squeeze {c c' : Compound} (h : c'.squeeze = c.squeeze) :
    c'.head?.map Simple.squeeze = c.head?.map Simple.squeeze := by
  rw [← List.head?_map, ← List.head?_map]
  exact congrArg List.head? h

theorem collectCompound_agree {left : Token} {taken taken' : Compound}
    (htaken : taken'.squeeze = taken.squeeze) (hfirm : forgives left = false)
    (h : Respaced (some left) ts us) :
    AgreeCompound (collectCompound taken ts) (collectCompound taken' us) := by
  induction hn : ts.length using Nat.strongRecOn generalizing left taken taken' ts us with
  | ind n ih =>
    have hstop : collectCompound taken ts = .ok (taken.reverse, ts) ->
        collectCompound taken' us = .ok (taken'.reverse, us) ->
        AgreeCompound (collectCompound taken ts) (collectCompound taken' us) := by
      intro hts hus
      rw [hts, hus]
      exact .ok (squeeze_reverse htaken) fun _ => ⟨left, hfirm, h⟩
    rcases h.head hfirm with ⟨t, u, ts, us, rfl, rfl, hspace, hsame, hrest⟩ | ⟨hts, hus⟩
    · have hread := read?_agree (allowsElement_squeeze (head?_squeeze htaken)) hspace hsame hrest
      cases hr : read? taken.head? t ts with
      | none =>
          rw [hr] at hread
          cases hr' : read? taken'.head? u us with
          | none => exact hstop (collectCompound_none hr) (collectCompound_none hr')
          | some r' =>
              rw [hr'] at hread
              cases hread
      | some r =>
          rw [hr] at hread
          cases hr' : read? taken'.head? u us with
          | none =>
              rw [hr'] at hread
              cases hread
          | some r' =>
              rw [hr'] at hread
              cases hread with
              | some hagree =>
                  cases hagree with
                  | error e e' =>
                      rw [collectCompound_error hr, collectCompound_error hr']
                      exact .error _ _
                  | ok hs hfirm' hrest' =>
                      have hlt := read?_length hr
                      rw [collectCompound_some hr, collectCompound_some hr']
                      refine ih _ (hn ▸ hlt) ?_ hfirm' hrest' rfl
                      simpa [Compound.squeeze, hs] using htaken
    · have hdull : ∀ {taken : Compound} {ts : List Token}, Dull ts ->
          collectCompound taken ts = .ok (taken.reverse, ts) := by
        intro taken ts hts
        cases ts with
        | nil => rw [collectCompound]
        | cons t ts => exact collectCompound_none (read?_dull hts)
      exact hstop (hdull hts) (hdull hus)

theorem readCompound_agree (h : Meet ts us) :
    AgreeCompound (readCompound ts) (readCompound us) := by
  unfold readCompound
  rcases h with ⟨rfl, rfl⟩ | ⟨t, u, ts, us, rfl, rfl, hspace, hsame, hrest⟩
  · rw [collectCompound]
    exact .ok rfl fun hne => absurd rfl hne
  · have hread : Option.Rel Agree (read? (List.head? []) t ts) (read? (List.head? []) u us) :=
      read?_agree rfl hspace hsame hrest
    generalize hr : read? (List.head? []) t ts = r, hr' : read? (List.head? []) u us = r' at hread
    cases hread with
    | none =>
        rw [collectCompound_none hr, collectCompound_none hr']
        exact .ok rfl fun hne => absurd rfl hne
    | some hagree =>
        cases hagree with
        | error e e' =>
            rw [collectCompound_error hr, collectCompound_error hr']
            exact .error _ _
        | ok hs hfirm hrest =>
            rw [collectCompound_some hr, collectCompound_some hr']
            apply collectCompound_agree ?_ hfirm hrest
            simpa [Compound.squeeze] using hs

/-!
## Combinators
-/

inductive AgreeCombinator : Option (Combinator × List Token) ->
    Option (Combinator × List Token) -> Prop where
  | none : AgreeCombinator none none
  | some {c : Combinator} {rest rest' : List Token} (hrest : Meet rest rest') :
      AgreeCombinator (some (c, rest)) (some (c, rest'))

theorem combinatorOf?_of_same (h : u.lexeme = t.lexeme) : combinatorOf? u = combinatorOf? t := by
  rw [combinatorOf?, combinatorOf?, isDelim_of_same h, isDelim_of_same h, isDelim_of_same h]

theorem startsCompound_of_same (h : u.lexeme = t.lexeme) :
    startsCompound u = startsCompound t := by
  rw [startsCompound, startsCompound, kind_of_same h, isDelim_of_same h, isDelim_of_same h,
    isDelim_of_same h, isDelim_of_same h]

theorem startsCompound_of_parts (hparts : parts t = true) (hnone : combinatorOf? t = none) :
    startsCompound t = false := by
  have hcomma : t.kind = .comma := by
    unfold combinatorOf? at hnone
    split at hnone
    · cases hnone
    · split at hnone
      · cases hnone
      · split at hnone
        · cases hnone
        · simp_all [parts, Token.isCombinator]
  simp [startsCompound, Token.isDelim, hcomma]

theorem startsWithSpace_gap {gap : List Token} (h : AllSpace gap) (hspace : t.kind ≠ .whitespace)
    (ts : List Token) : startsWithSpace (gap ++ t :: ts) = !gap.isEmpty := by
  cases gap with
  | nil => simpa [startsWithSpace] using hspace
  | cons w gap => simp [startsWithSpace, (h w List.mem_cons_self).1]

theorem readCombinator?_agree {left : Token} (hfirm : forgives left = false)
    (h : Respaced (some left) ts us) :
    AgreeCombinator (readCombinator? ts) (readCombinator? us) := by
  unfold readCombinator?
  cases h with
  | ends hgap hgap' =>
      have hnil : ∀ {gap : List Token}, AllSpace gap -> skipSpace gap = [] := by
        intro gap hgap
        simpa [skipSpace] using skipSpace_gap hgap []
      rw [hnil hgap, hnil hgap']
      exact .none
  | next hgap hgap' hspace hsame hloose htail =>
      rename_i gap gap' ts us t u
      have hspace' : u.kind ≠ .whitespace := by
        rw [kind_of_same hsame]
        exact hspace
      rw [skipSpace_gap hgap, skipSpace_gap hgap', skipSpace_visible _ hspace,
        skipSpace_visible _ hspace', startsWithSpace_gap hgap hspace,
        startsWithSpace_gap hgap' hspace']
      simp only [combinatorOf?_of_same hsame, startsCompound_of_same hsame]
      cases hcombinator : combinatorOf? t with
      | some c => exact .some htail.skipSpace
      | none =>
          simp only
          cases hstarts : startsCompound t with
          | false =>
              rw [Bool.and_false, Bool.and_false]
              exact .none
          | true =>
              have hempty : gap'.isEmpty = gap.isEmpty := by
                rcases hloose with hiff | hloose
                · cases gap with
                  | nil => rw [hiff.mp rfl]
                  | cons w gap =>
                      cases gap' with
                      | nil => exact absurd (hiff.mpr rfl) (List.cons_ne_nil _ _)
                      | cons w' gap' => rfl
                · simp only [loose, Option.all_some, hfirm, Bool.false_or, Bool.and_eq_true]
                    at hloose
                  rw [startsCompound_of_parts hloose.1 hcombinator] at hstarts
                  cases hstarts
              rw [hempty, Bool.and_true]
              cases gap.isEmpty with
              | true => exact .none
              | false => exact .some (Or.inr ⟨t, u, ts, us, rfl, rfl, hspace, hsame, htail⟩)

/-!
## Complex selectors
-/

abbrev Parts := List (Combinator × Compound)

def Parts.squeeze (parts : Parts) : Parts :=
  parts.map fun part => (part.1, Compound.squeeze part.2)

theorem collectParts_none {taken : Parts} (h : readCombinator? ts = none) :
    collectParts taken ts = .ok (taken.reverse, ts) := by
  rw [collectParts]
  split
  · rfl
  · rename_i hread
    rw [h] at hread
    cases hread

theorem collectParts_some {taken : Parts} {c : Combinator} {rest : List Token}
    (h : readCombinator? ts = some (c, rest)) :
    collectParts taken ts =
      match readCompound rest with
      | .error e => .error e
      | .ok ([], _) => .error .danglingCombinator
      | .ok (s :: compound, rest') => collectParts ((c, s :: compound) :: taken) rest' := by
  rw [collectParts]
  split
  · rename_i hread
    rw [h] at hread
    cases hread
  · rename_i hread
    rw [h] at hread
    cases hread
    split
    · rename_i hcompound
      rw [hcompound]
    · rename_i hcompound
      rw [hcompound]
    · rename_i hcompound
      rw [hcompound]

inductive AgreeParts : Except SelectorError (Parts × List Token) ->
    Except SelectorError (Parts × List Token) -> Prop where
  | error (e e' : SelectorError) : AgreeParts (.error e) (.error e')
  | ok {parts parts' : Parts} {last : Token} {rest rest' : List Token}
      (hparts : Parts.squeeze parts' = Parts.squeeze parts) (hfirm : forgives last = false)
      (hrest : Respaced (some last) rest rest') :
      AgreeParts (.ok (parts, rest)) (.ok (parts', rest'))

theorem collectParts_agree {left : Token} {taken taken' : Parts}
    (htaken : Parts.squeeze taken' = Parts.squeeze taken) (hfirm : forgives left = false)
    (h : Respaced (some left) ts us) :
    AgreeParts (collectParts taken ts) (collectParts taken' us) := by
  induction hn : ts.length using Nat.strongRecOn generalizing left taken taken' ts us with
  | ind n ih =>
    have hcombinator := readCombinator?_agree hfirm h
    generalize hr : readCombinator? ts = r, hr' : readCombinator? us = r' at hcombinator
    cases hcombinator with
    | none =>
        rw [collectParts_none hr, collectParts_none hr']
        refine .ok ?_ hfirm h
        unfold Parts.squeeze at htaken ⊢
        rw [List.map_reverse, List.map_reverse, htaken]
    | some hrest =>
        rename_i c rest rest'
        have hlt := readCombinator?_length hr
        have hcompound := readCompound_agree hrest
        rw [collectParts_some hr, collectParts_some hr']
        generalize hd : readCompound rest = d, readCompound rest' = d' at hcompound
        cases hcompound with
        | error e e' => exact .error _ _
        | ok hc hafter =>
            rename_i compound compound' after after'
            cases compound with
            | nil =>
                cases compound' with
                | nil => exact .error _ _
                | cons s' compound' => cases hc
            | cons s compound =>
                cases compound' with
                | nil => cases hc
                | cons s' compound' =>
                    rcases hafter (List.cons_ne_nil _ _) with ⟨last, hlast, hafter⟩
                    have hlength := readCompound_length hd
                    simp only [List.length_cons] at hlength
                    refine ih after.length (by omega) ?_ hlast hafter rfl
                    unfold Parts.squeeze at htaken ⊢
                    rw [List.map_cons, List.map_cons, htaken, hc]

inductive AgreeComplex : Except SelectorError (Complex × List Token) ->
    Except SelectorError (Complex × List Token) -> Prop where
  | error (e e' : SelectorError) : AgreeComplex (.error e) (.error e')
  | ok {c c' : Complex} {last : Token} {rest rest' : List Token} (hc : c'.squeeze = c.squeeze)
      (hfirm : forgives last = false) (hrest : Respaced (some last) rest rest') :
      AgreeComplex (.ok (c, rest)) (.ok (c', rest'))

theorem readComplex_agree (h : Meet ts us) : AgreeComplex (readComplex ts) (readComplex us) := by
  have hcompound := readCompound_agree h
  unfold readComplex
  generalize readCompound ts = r, readCompound us = r' at hcompound
  cases hcompound with
  | error e e' => exact .error _ _
  | ok hc hafter =>
      rename_i compound compound' after after'
      cases compound with
      | nil =>
          cases compound' with
          | nil => cases after <;> cases after' <;> exact .error _ _
          | cons s' compound' => cases hc
      | cons s compound =>
          cases compound' with
          | nil => cases hc
          | cons s' compound' =>
              rcases hafter (List.cons_ne_nil _ _) with ⟨last, hlast, hafter⟩
              have hparts : AgreeParts (collectParts [] after) (collectParts [] after') :=
                collectParts_agree rfl hlast hafter
              simp only
              generalize collectParts [] after = d, collectParts [] after' = d' at hparts
              cases hparts with
              | error e e' => exact .error _ _
              | ok hparts hfirm hrest =>
                  refine .ok ?_ hfirm hrest
                  unfold Parts.squeeze at hparts
                  rw [Complex.squeeze, Complex.squeeze, hc, hparts]

/-!
## Lists
-/

theorem collectList_eq (taken : SelectorList) (ts : List Token) :
    collectList taken ts =
      match readComplex ts with
      | .error e => .error e
      | .ok (c, rest) =>
          match skipSpace rest with
          | [] => .ok (c :: taken).reverse
          | t :: after =>
              if t.kind = .comma then
                match skipSpace after with
                | [] => .error .trailingComma
                | next :: more => collectList (c :: taken) (next :: more)
              else .error (.unexpected t.raw) := by
  rw [collectList]
  split
  · rename_i hread
    rw [hread]
  · rename_i hread
    rw [hread]
    simp only
    split
    · rename_i hskip
      rw [hskip]
    · rename_i hskip
      rw [hskip]
      simp only
      split
      · split
        · rename_i hafter
          rw [hafter]
        · rename_i hafter
          rw [hafter]
      · rfl

inductive AgreeList : Except SelectorError SelectorList -> Except SelectorError SelectorList ->
    Prop where
  | error (e e' : SelectorError) : AgreeList (.error e) (.error e')
  | ok {list list' : SelectorList} (h : list'.squeeze = list.squeeze) :
      AgreeList (.ok list) (.ok list')

theorem collectList_agree {taken taken' : SelectorList} (htaken : taken'.squeeze = taken.squeeze)
    (h : Meet ts us) : AgreeList (collectList taken ts) (collectList taken' us) := by
  induction hn : ts.length using Nat.strongRecOn generalizing taken taken' ts us with
  | ind n ih =>
    have hcomplex := readComplex_agree h
    rw [collectList_eq, collectList_eq]
    generalize hr : readComplex ts = r, readComplex us = r' at hcomplex
    cases hcomplex with
    | error e e' => exact .error _ _
    | ok hc hfirm hrest =>
        rename_i c c' last rest rest'
        have htaken' : SelectorList.squeeze (c' :: taken') = SelectorList.squeeze (c :: taken) := by
          unfold SelectorList.squeeze at htaken ⊢
          rw [List.map_cons, List.map_cons, htaken, hc]
        have hlength := readComplex_length hr
        have hskip := skipSpace_length_le rest
        simp only
        rcases hrest.skipSpace with ⟨hts, hus⟩ | ⟨t, u, after, after', hts, hus, _, hsame, hafter⟩
        · rw [hts, hus]
          refine .ok ?_
          unfold SelectorList.squeeze at htaken' ⊢
          rw [List.map_reverse, List.map_reverse, htaken']
        · rw [hts, List.length_cons] at hskip
          rw [hts, hus]
          simp only [kind_of_same hsame]
          by_cases hcomma : t.kind = .comma
          · rw [if_pos hcomma, if_pos hcomma]
            have hskip' := skipSpace_length_le after
            rcases hafter.skipSpace with
              ⟨hts, hus⟩ | ⟨v, v', more, more', hts, hus, hspace, hsame, hmore⟩
            · rw [hts, hus]
              exact .error _ _
            · rw [hts, List.length_cons] at hskip'
              rw [hts, hus]
              exact ih (v :: more).length (by simp only [List.length_cons]; omega) htaken'
                (Or.inr ⟨v, v', more, more', rfl, rfl, hspace, hsame, hmore⟩) rfl
          · rw [if_neg hcomma, if_neg hcomma]
            exact .error _ _

end Selector

namespace SelectorList

theorem ofTokens_respaced {ts us : List Token}
    (h : Simple.Respaced none (Token.body ts) (Token.body us)) :
    (ofTokens us).toOption.map squeeze = (ofTokens ts).toOption.map squeeze := by
  have hagree : Selector.AgreeList (ofTokens ts) (ofTokens us) := by
    unfold ofTokens
    rcases h.skipSpace with ⟨hts, hus⟩ | haligned
    · rw [hts, hus]
      exact .error _ _
    · have hlist : Selector.AgreeList (Selector.collectList [] (Simple.skipSpace (Token.body ts)))
          (Selector.collectList [] (Simple.skipSpace (Token.body us))) :=
        Selector.collectList_agree rfl (Or.inr haligned)
      rcases haligned with ⟨t, u, ts', us', hts, hus, _⟩
      rw [hts, hus] at hlist ⊢
      exact hlist
  generalize ofTokens ts = r, ofTokens us = r' at hagree
  cases hagree with
  | error e e' => rfl
  | ok hlist => simpa [Except.toOption] using hlist

end SelectorList
end StyleTrim
