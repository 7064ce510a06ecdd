import StyleTrim.Proofs.Sheet.Splitting

/-!
# Looking ahead again

What comes next in a block is told by looking ahead: a name and a colon begin a declaration, an
opening brace tells a rule, and two words at the end of a value make it important. The tokens that
are read from written text answer all of these as the first tokens did.
-/

namespace StyleTrim
namespace Sheet

open Token

/-!
## Visible tokens
-/

def visible (ts : List Token) : List Token :=
  ts.filter fun t => t.kind != .whitespace

theorem visible_space {t : Token} (ts : List Token) (h : t.kind = .whitespace) :
    visible (t :: ts) = visible ts := by
  simp [visible, h]

theorem visible_token {t : Token} (ts : List Token) (h : t.kind ≠ .whitespace) :
    visible (t :: ts) = t :: visible ts := by
  simp [visible, h]

theorem visible_append (ts us : List Token) : visible (ts ++ us) = visible ts ++ visible us :=
  List.filter_append ..

theorem visible_skipSpace (ts : List Token) : visible (Simple.skipSpace ts) = visible ts := by
  induction ts with
  | nil => rfl
  | cons t ts ih =>
      by_cases hspace : t.kind = .whitespace
      · rw [visible_space ts hspace, ← ih]
        simp [Simple.skipSpace, hspace]
      · simp [Simple.skipSpace, hspace]

theorem skipSpace_token {t : Token} (ts : List Token) (h : t.kind ≠ .whitespace) :
    Simple.skipSpace (t :: ts) = t :: ts := by
  simp [Simple.skipSpace, h]

theorem skipSpace_head {t : Token} {ts rest : List Token} (h : Simple.skipSpace ts = t :: rest) :
    t.kind ≠ .whitespace := by
  have hhead := List.head?_dropWhile_not (fun t : Token => t.kind == .whitespace) ts
  rw [show ts.dropWhile _ = t :: rest from h] at hhead
  simpa using hhead

theorem skipSpace_split (ts : List Token) :
    ∃ gap, ts = gap ++ Simple.skipSpace ts ∧ ∀ t ∈ gap, t.kind = .whitespace := by
  refine ⟨_, (List.takeWhile_append_dropWhile (l := ts)).symm, ?_⟩
  intro t ht
  simpa using List.all_eq_true.mp List.all_takeWhile t ht

theorem visible_gap {u : Token} {joint : Bytes} {gap : List Token} (h : Between u joint gap)
    (us : List Token) : visible (gap ++ us) = visible us := by
  cases h with
  | nothing => rfl
  | comment _ => rfl
  | space hw => exact visible_space us (space_kind hw)

variable {place : Place} {last : Option Token} {space : Bool} {ts us : List Token}

theorem visible_echoes (h : Echoes place last space ts us) :
    List.Forall₂ Answers (visible (unslashed ts)) (visible us) := by
  induction h with
  | nil => exact .nil
  | space hspace htail ih =>
      rename_i t ts us
      have hslash : t.isDelim 0x5C = false := by simp [Token.isDelim, hspace]
      rw [unslashed, List.filter_cons_of_pos (by simp [hslash]), visible_space _ hspace]
      exact ih
  | slash hslash htail ih =>
      rw [unslashed, List.filter_cons_of_neg (by simp [hslash])]
      exact ih
  | token hspace hsilent hbetween hu hhead htail ih =>
      have hanswers := Answers.mk hu hhead
      rw [unslashed, List.filter_cons_of_pos (by simp [(Bool.or_eq_false_iff.mp hsilent).2]),
        visible_gap hbetween, visible_token _ hspace,
        visible_token _ (answers_space hanswers hspace)]
      exact .cons hanswers ih

theorem closes_kind {b : UInt8} {c : Token} (h : Closes b c) :
    c.kind = .rightParen ∨ c.kind = .rightBracket ∨ c.kind = .rightBrace := by
  rcases h with ⟨hcloser, kind, hmark, hlexeme⟩
  have hkind : c.kind = kind := congrArg Lexeme.kind hlexeme
  rcases hcloser with rfl | rfl | rfl
  · cases hmark
    exact Or.inl hkind
  · cases hmark
    exact Or.inr (Or.inl hkind)
  · cases hmark
    exact Or.inr (Or.inr hkind)

theorem closers_kind {bs : Bytes} {cs : List Token} (h : List.Forall₂ Closes bs cs) :
    ∀ c ∈ cs, c.kind = .rightParen ∨ c.kind = .rightBracket ∨ c.kind = .rightBrace := by
  induction h with
  | nil => nofun
  | cons hb _ ih =>
      intro c hc
      rcases List.mem_cons.mp hc with rfl | hc
      · exact closes_kind hb
      · exact ih c hc

/-!
## A closing `!important`
-/

def endsImportant : List Token -> Bool
  | word :: bang :: _ =>
      word.kind == .ident && lower word.value == ascii "important" && bang.isDelim 0x21
  | _ => false

theorem value_of_answers {t u : Token} (h : Answers t u) (hkind : t.kind = .ident) :
    u.value = t.value := by
  rcases becomes_cases h.becomes with hsame | ⟨ht, _⟩
  · exact congrArg Lexeme.value hsame
  · rcases ht with ht | ht | ht | ht <;>
    · rw [hkind] at ht
      cases ht

theorem endsImportant_of_ne {word : Token} (h : word.kind ≠ .ident) (more : List Token) :
    endsImportant (word :: more) = false := by
  cases more <;> simp [endsImportant, h]

theorem endsImportant_answers (h : List.Forall₂ Answers ts us) :
    endsImportant us = endsImportant ts := by
  cases h with
  | nil => rfl
  | cons hword hrest =>
      rename_i word word' _ _
      cases hrest with
      | nil => rfl
      | cons hbang _ =>
          have hident : (word'.kind == .ident) = (word.kind == .ident) :=
            hword.kind_beq .ident (by decide)
          rw [endsImportant, endsImportant, hident, hbang.isDelim]
          by_cases hkind : word.kind = .ident
          · rw [value_of_answers hword hkind]
          · rw [beq_eq_false_iff_ne.mpr hkind]
            rfl

theorem dropImportant?_isSome (value : List Token) :
    (dropImportant? value).isSome = endsImportant (visible value).reverse := by
  have hreverse : (visible value).reverse = visible (Simple.skipSpace value.reverse) := by
    rw [visible_skipSpace, visible, visible, List.filter_reverse]
  have htrim : (trimEnd value).reverse = Simple.skipSpace value.reverse := by
    rw [trimEnd, List.reverse_reverse]
    rfl
  rw [hreverse, dropImportant?, htrim]
  cases hback : Simple.skipSpace value.reverse with
  | nil => rfl
  | cons word before =>
      rw [visible_token before (skipSpace_head hback), ← visible_skipSpace before]
      cases hbefore : Simple.skipSpace before with
      | nil =>
          by_cases hword : word.kind = .ident ∧ lower word.value = ascii "important" <;>
            simp [hword, hbefore, endsImportant, visible]
      | cons bang rest =>
          rw [visible_token rest (skipSpace_head hbefore)]
          by_cases hword : word.kind = .ident ∧ lower word.value = ascii "important"
          · by_cases hbang : bang.isDelim 0x21 = true
            · simp [hword, hbefore, hbang, endsImportant]
            · simp [hword, hbefore, hbang, endsImportant]
          · have hno : (word.kind == .ident && lower word.value == ascii "important") = false := by
              simpa [← not_and_or] using hword
            simp [hword, endsImportant, hno]

theorem dropImportant?_settles (h : Settles place ts us)
    (hnone : dropImportant? (unslashed ts) = none) : dropImportant? us = none := by
  have hts := dropImportant?_isSome (unslashed ts)
  rw [hnone, Option.isSome_none] at hts
  rw [← Option.not_isSome_iff_eq_none, dropImportant?_isSome]
  cases h with
  | intro hechoes hclosers =>
      rename_i us cs
      rw [visible_append, List.reverse_append]
      rcases List.eq_nil_or_concat cs with rfl | ⟨front, c, rfl⟩
      · rw [show visible [] = [] from rfl, List.reverse_nil, List.nil_append,
          endsImportant_answers (List.forall₂_reverse_iff.mpr (visible_echoes hechoes)), ← hts]
        decide
      · have hc := closers_kind hclosers c (by simp)
        have hspace : c.kind ≠ .whitespace := by
          rcases hc with hc | hc | hc <;> simp [hc]
        have hident : c.kind ≠ .ident := by
          rcases hc with hc | hc | hc <;> simp [hc]
        rw [List.concat_eq_append, visible_append, visible_token [] hspace, List.reverse_append,
          Bool.not_eq_true]
        exact endsImportant_of_ne hident _

theorem dropImportant?_some {value rest : List Token} (h : dropImportant? value = some rest) :
    ∃ bang gap, value = rest ++ bang :: gap ∧ bang.isDelim 0x21 = true := by
  have htrim : (trimEnd value).reverse = Simple.skipSpace value.reverse := by
    rw [trimEnd, List.reverse_reverse]
    rfl
  rw [dropImportant?, htrim] at h
  split at h
  · rename_i word before hback
    split at h
    · split at h
      · rename_i bang front hbefore
        split at h
        · rename_i hbang
          cases h
          rcases skipSpace_split value.reverse with ⟨gap, hgap, _⟩
          rcases skipSpace_split before with ⟨gap', hgap', _⟩
          rw [hback, hgap', hbefore] at hgap
          refine ⟨bang, gap'.reverse ++ word :: gap.reverse, ?_, hbang⟩
          rw [← List.reverse_reverse value, hgap]
          simp
        · cases h
      · cases h
    · cases h
  · cases h

theorem dropImportant?_mark {bang word : Token} (us : List Token) (hbang : bang.isDelim 0x21 = true)
    (hword : word.kind = .ident) (hvalue : lower word.value = ascii "important") :
    dropImportant? (us ++ [bang, word]) = some us := by
  have hspace : word.kind ≠ .whitespace := by simp [hword]
  have hbangSpace : bang.kind ≠ .whitespace := by
    simp only [Token.isDelim, Bool.and_eq_true, beq_iff_eq] at hbang
    simp [hbang.1]
  have htrim : (trimEnd (us ++ [bang, word])).reverse = word :: bang :: us.reverse := by
    rw [trimEnd, List.reverse_reverse]
    simp [hspace]
  rw [dropImportant?, htrim]
  dsimp only
  rw [if_pos ⟨hword, hvalue⟩, skipSpace_token _ hbangSpace]
  dsimp only
  rw [if_pos hbang, List.reverse_reverse]

/-!
## The beginning of a declaration
-/

/-- The tokens that make up the opening of a declaration. -/
structure Opening.Stands (opening : Opening) (star : List Token) (name : Token)
    (gap : List Token) (colon : Token) : Prop where
  front : star = [] ∨ ∃ t, star = [t] ∧ t.isDelim 0x2A = true
  ident : name.kind = .ident
  spaces : ∀ t ∈ gap, t.kind = .whitespace
  ends : colon.kind = .colon
  property : opening.property = star.flatMap Token.raw ++ name.raw
  value : opening.name = name.value

theorem openingAfter?_some {before : Bytes} {ts : List Token} {opening : Opening}
    (h : openingAfter? before ts = some opening) :
    ∃ name gap colon, ts = name :: (gap ++ colon :: opening.rest) ∧ name.kind = .ident ∧
      (∀ t ∈ gap, t.kind = .whitespace) ∧ colon.kind = .colon ∧
      opening.property = before ++ name.raw ∧ opening.name = name.value := by
  unfold openingAfter? at h
  split at h
  · cases h
  · rename_i t ts
    split at h
    · rename_i hkind
      split at h
      · cases h
      · rename_i colon rest hskip
        split at h
        · rename_i hcolon
          cases h
          rcases skipSpace_split ts with ⟨gap, hgap, hall⟩
          rw [hskip] at hgap
          exact ⟨t, gap, colon, by rw [hgap], hkind, hall, hcolon, rfl, rfl⟩
        · cases h
    · cases h

theorem opening?_some {ts : List Token} {opening : Opening} (h : opening? ts = some opening) :
    ∃ star name gap colon, ts = star ++ name :: (gap ++ colon :: opening.rest) ∧
      opening.Stands star name gap colon := by
  unfold opening? at h
  split at h
  · cases h
  · rename_i t ts
    split at h
    · rename_i hstar
      rcases openingAfter?_some h with
        ⟨name, gap, colon, hts, hname, hgap, hcolon, hproperty, hvalue⟩
      refine ⟨[t], name, gap, colon, by rw [hts]; rfl, Or.inr ⟨t, rfl, hstar⟩, hname, hgap, hcolon,
        ?_, hvalue⟩
      simpa using hproperty
    · rcases openingAfter?_some h with
        ⟨name, gap, colon, hts, hname, hgap, hcolon, hproperty, hvalue⟩
      exact ⟨[], name, gap, colon, hts, Or.inl rfl, hname, hgap, hcolon, hproperty, hvalue⟩

theorem opening?_of_stands {opening : Opening} {star gap : List Token} {name colon : Token}
    (h : opening.Stands star name gap colon) :
    opening? (star ++ name :: (gap ++ colon :: opening.rest)) = some opening := by
  have hcolon : Simple.skipSpace (gap ++ colon :: opening.rest) = colon :: opening.rest := by
    rw [Simple.skipSpace, List.dropWhile_append_of_pos fun t ht => by simpa using h.spaces t ht]
    exact skipSpace_token _ (by simp [h.ends])
  have hafter : ∀ before, opening.property = before ++ name.raw ->
      openingAfter? before (name :: (gap ++ colon :: opening.rest)) = some opening := by
    intro before hproperty
    rw [openingAfter?, if_pos h.ident, hcolon]
    dsimp only
    rw [if_pos h.ends, ← hproperty, ← h.value]
  have hname : name.isDelim 0x2A = false := by simp [Token.isDelim, h.ident]
  rcases h.front with rfl | ⟨t, rfl, hstar⟩
  · rw [List.nil_append, opening?, hname]
    exact hafter [] h.property
  · rw [List.singleton_append, opening?, if_pos hstar]
    apply hafter
    simpa using h.property

def colonAhead (ts : List Token) : Bool :=
  (visible ts).head?.any fun t => t.kind == .colon

theorem openingAfter?_name (before : Bytes) (t : Token) (ts : List Token) :
    (openingAfter? before (t :: ts)).map Opening.name =
      if t.kind == .ident && colonAhead ts then some t.value else none := by
  rw [openingAfter?, colonAhead, ← visible_skipSpace]
  cases hskip : Simple.skipSpace ts with
  | nil => simp [visible]
  | cons colon rest =>
      rw [visible_token rest (skipSpace_head hskip)]
      by_cases hkind : t.kind = .ident <;> by_cases hcolon : colon.kind = .colon <;>
        simp [hkind, hcolon]

theorem openingAfter?_of_head {ts : List Token} (before : Bytes)
    (h : ∀ t ∈ ts.head?, t.kind ≠ .ident) : openingAfter? before ts = none := by
  cases ts with
  | nil => rfl
  | cons t ts => rw [openingAfter?, if_neg (h t rfl)]

theorem colonAhead_answers {more more' : List Token}
    (h : List.Forall₂ Answers (visible ts) (visible us)) (hmore : colonAhead more = false)
    (hmore' : colonAhead more' = false) : colonAhead (us ++ more') = colonAhead (ts ++ more) := by
  rw [colonAhead, colonAhead, visible_append, visible_append]
  generalize visible ts = vs, visible us = vs' at h
  cases h with
  | nil =>
      rw [List.nil_append, List.nil_append]
      exact hmore'.trans hmore.symm
  | cons hfirst _ =>
      simpa using hfirst.kind_beq .colon (by decide)

theorem needsSeparator_asterisk {star : Token} (h : star.isDelim 0x2A = true) (t : Token) :
    needsSeparator star t = false := by
  simp only [Token.isDelim, Bool.and_eq_true, beq_iff_eq] at h
  unfold needsSeparator
  rw [h.1, h.2]
  split
  · rfl
  · split <;> rfl

theorem head_behind_asterisk {star : Token} (hstar : star.isDelim 0x2A = true)
    (hlast : last = some star) (hspace : space = true)
    (h : Echoes .selector last space ts us) : ∀ u ∈ us.head?, u.kind ≠ .ident := by
  induction h with
  | nil => nofun
  | space hkind htail ih => exact ih hlast rfl
  | slash hslash htail ih => exact ih hlast hspace
  | token hkind hsilent hbetween hu hhead htail ih =>
      rename_i last space t u gap ts us
      subst hlast hspace
      have hident := kind_eq_of_answers (Answers.mk hu hhead) .ident
        (by decide)
      intro v hv hv'
      by_cases ht : t.kind = .ident
      · have hdrops : dropsSpace .selector star t = false := by
          simp only [Token.isDelim, Bool.and_eq_true, beq_iff_eq] at hstar
          simp [dropsSpace, isCombinator, Token.isDelim, hstar.1, hstar.2, ht]
        have hjoint : jointAfter .selector (some star) true t = [0x20] := by
          simp [jointAfter, joint, hdrops]
        rw [hjoint] at hbetween
        cases hbetween with
        | space hw =>
            obtain rfl : _ = v := by simpa using hv
            rw [space_kind hw] at hv'
            cases hv'
      · generalize jointAfter .selector (some star) true t = joint at hbetween
        cases hbetween with
        | nothing =>
            obtain rfl : u = v := by simpa using hv
            exact ht (hident.mp hv')
        | comment _ =>
            obtain rfl : u = v := by simpa using hv
            exact ht (hident.mp hv')
        | space hw =>
            obtain rfl : _ = v := by simpa using hv
            rw [space_kind hw] at hv'
            cases hv'

structure EndsOpening (more : List Token) : Prop where
  ident : ∀ t ∈ more.head?, t.kind ≠ .ident
  colon : colonAhead more = false

theorem endsOpening_of_kind {t : Token} (more : List Token) (hspace : t.kind ≠ .whitespace)
    (hident : t.kind ≠ .ident) (hcolon : t.kind ≠ .colon) : EndsOpening (t :: more) := by
  constructor
  · intro u hu
    obtain rfl : t = u := by simpa using hu
    exact hident
  · rw [colonAhead, visible_token more hspace]
    simpa using hcolon

theorem endsOpening_of_brace {u : Token} (rest : List Token) (h : u.kind = .leftBrace) :
    EndsOpening (u :: rest) := by
  apply endsOpening_of_kind <;> simp [h]

theorem endsOpening_of_closers {bs : Bytes} {cs : List Token} {u : Token}
    (h : List.Forall₂ Closes bs cs) (rest : List Token) (hopen : u.kind = .leftBrace) :
    EndsOpening (cs ++ u :: rest) := by
  cases h with
  | nil => exact endsOpening_of_brace rest hopen
  | cons hb _ =>
      apply endsOpening_of_kind <;>
      · rcases closes_kind hb with hc | hc | hc <;> simp [hc]

theorem openingAfter?_answers {t u : Token} {more more' : List Token} (before before' : Bytes)
    (h : Answers t u) (hall : List.Forall₂ Answers (visible ts) (visible us))
    (hmore : EndsOpening more) (hmore' : EndsOpening more') :
    (openingAfter? before' (u :: (us ++ more'))).map Opening.name =
      (openingAfter? before (t :: (ts ++ more))).map Opening.name := by
  have hident : (u.kind == .ident) = (t.kind == .ident) :=
    h.kind_beq .ident (by decide)
  rw [openingAfter?_name, openingAfter?_name, hident,
    colonAhead_answers hall hmore.colon hmore'.colon]
  by_cases hkind : t.kind = .ident
  · rw [value_of_answers h hkind]
  · simp [hkind]

theorem openingAfter?_asterisk {star : Token} {more more' : List Token} (before before' : Bytes)
    (hstar : star.isDelim 0x2A = true) (h : Echoes .selector (some star) false ts us)
    (hplain : NoSlash ts) (hmore : EndsOpening more) (hmore' : EndsOpening more') :
    (openingAfter? before' (us ++ more')).map Opening.name =
      (openingAfter? before (ts ++ more)).map Opening.name := by
  have hnone : ∀ {more : List Token} (before : Bytes), (∀ t ∈ more.head?, t.kind ≠ .ident) ->
      (openingAfter? before more).map Opening.name = none := by
    intro more before hhead
    rw [openingAfter?_of_head before hhead]
    rfl
  cases h with
  | nil => rw [List.nil_append, List.nil_append, hnone _ hmore.ident, hnone _ hmore'.ident]
  | space hkind htail =>
      rename_i w ts
      rw [hnone before (by simp [hkind])]
      apply hnone
      have hhead := head_behind_asterisk hstar rfl rfl htail
      cases us with
      | nil => exact hmore'.ident
      | cons u us => exact hhead
  | slash hslash htail =>
      rw [hplain _ List.mem_cons_self] at hslash
      cases hslash
  | token hkind hsilent hbetween hu hhead htail =>
      rename_i t u gap ts us
      have hjoint : jointAfter .selector (some star) false t = [] := by
        simp [jointAfter, joint, needsSeparator_asterisk hstar]
      rw [hjoint] at hbetween
      cases hbetween with
      | nothing =>
          have hall := visible_echoes htail
          rw [hplain.tail.unslashed] at hall
          exact openingAfter?_answers before before' ⟨hu, hhead⟩ hall hmore hmore'

theorem opening?_settles {u u' : Token} (rest rest' : List Token)
    (h : Settles .selector ts us) (hplain : NoSlash ts)
    (hfirst : ∀ t ∈ ts.head?, t.kind ≠ .whitespace)
    (hopen : u.kind = .leftBrace) (hopen' : u'.kind = .leftBrace) :
    (opening? (us ++ u' :: rest')).map Opening.name =
      (opening? (ts ++ u :: rest)).map Opening.name := by
  cases h with
  | intro hechoes hclosers =>
      rename_i us cs
      have hmore := endsOpening_of_brace rest hopen
      have hmore' := endsOpening_of_closers hclosers rest' hopen'
      rw [List.append_assoc]
      cases hechoes with
      | nil =>
          cases hclosers
          have hnone : ∀ {u : Token} (rest : List Token), u.kind = .leftBrace ->
              opening? (u :: rest) = none := by
            intro u rest hkind
            simp [opening?, Token.isDelim, hkind, openingAfter?]
          rw [List.nil_append, List.nil_append, List.nil_append, hnone _ hopen, hnone _ hopen']
      | space hkind htail => exact absurd hkind (hfirst _ rfl)
      | slash hslash htail =>
          rw [hplain _ List.mem_cons_self] at hslash
          cases hslash
      | token hkind hsilent hbetween hu hhead htail =>
          rename_i t u gap ts us
          have hanswers := Answers.mk hu hhead
          have hall := visible_echoes htail
          rw [hplain.tail.unslashed] at hall
          cases hbetween with
          | nothing =>
              rw [List.nil_append, List.cons_append, List.cons_append, opening?, opening?,
                hanswers.isDelim]
              cases hstar : t.isDelim 0x2A with
              | true => exact openingAfter?_asterisk _ _ hstar htail hplain.tail hmore hmore'
              | false => exact openingAfter?_answers _ _ hanswers hall hmore hmore'

/-!
## An opening brace ahead
-/

theorem aheadAfter_ne_inl {d d' : Nat} (h : ts.foldl (preludeAfter false) (some d) = some d') :
    ts.foldl aheadAfter (.inr d) ≠ .inl true := by
  induction ts generalizing d with
  | nil => simp
  | cons t ts ih =>
      rw [List.foldl_cons] at h ⊢
      by_cases hends : endsPrelude false d t = true
      · rw [show preludeAfter false (some d) t = none by simp [preludeAfter, hends],
          foldl_preludeAfter_none] at h
        cases h
      · rw [show preludeAfter false (some d) t = some (depthAfter d t) by
          simp [preludeAfter, hends]] at h
        simp only [endsPrelude, Bool.or_eq_true, beq_iff_eq, Bool.false_and, Bool.false_eq_true,
          or_false, not_or] at hends
        by_cases hsemi : t.kind = .semicolon ∧ d = 0
        · rw [show aheadAfter (.inr d) t = .inl false by simp [aheadAfter, hsemi.1, hsemi.2],
            foldl_aheadAfter_inl]
          simp
        · rw [aheadAfter_plain hends.1 hends.2 fun hkind hd => hsemi ⟨hkind, hd⟩]
          exact ih h

theorem ruleAhead_settles {u u' : Token} {d : Nat} {rest : List Token} (rest' : List Token)
    (h : Settles place ts us) (hcount : ts.foldl (preludeAfter false) (some 0) = some d)
    (hopen' : u'.kind = .leftBrace) (hahead : ruleAhead 0 (ts ++ u :: rest) = true) :
    ruleAhead 0 (us ++ u' :: rest') = true := by
  rw [ruleAhead_behind] at hahead ⊢
  cases hfold : ts.foldl aheadAfter (.inr 0) with
  | inl found =>
      rw [hfold] at hahead
      obtain rfl : found = true := hahead
      exact absurd hfold (aheadAfter_ne_inl hcount)
  | inr d' =>
      rw [aheadAfter_eq_inr.mpr (preludeAfter_settles h (aheadAfter_eq_inr.mp hfold))]
      simp [ruleAhead, hopen']

def isPlain (t : Token) : Prop :=
  t.kind = .whitespace ∨ t.kind = .ident ∨ t.kind = .colon ∨ t.kind = .delim

theorem aheadAfter_of_isPlain {t : Token} (ahead : Bool ⊕ Nat) (h : isPlain t) :
    aheadAfter ahead t = ahead := by
  cases ahead with
  | inl found => rfl
  | inr d => rcases h with h | h | h | h <;> simp [aheadAfter, depthAfter, h]

theorem foldl_aheadAfter_plain (ahead : Bool ⊕ Nat) (h : ∀ t ∈ ts, isPlain t) :
    ts.foldl aheadAfter ahead = ahead := by
  induction ts with
  | nil => rfl
  | cons t ts ih =>
      rw [List.foldl_cons, aheadAfter_of_isPlain ahead (h t List.mem_cons_self)]
      exact ih fun u hu => h u (List.mem_cons_of_mem _ hu)

theorem ruleAhead_value {front front' mark more rest : List Token}
    (h : Settles place ts us) (hfront : ∀ t ∈ front, isPlain t) (hfront' : ∀ t ∈ front', isPlain t)
    (hmark : ∀ t ∈ mark, isPlain t)
    (hrest : ∀ t ∈ rest.head?, t.kind = .semicolon ∨ t.kind = .rightBrace)
    (hahead : ruleAhead 0 (front ++ (ts ++ more)) = false) :
    ruleAhead 0 (front' ++ (us ++ (mark ++ rest))) = false := by
  rw [ruleAhead_behind, foldl_aheadAfter_plain _ hfront] at hahead
  rw [ruleAhead_behind, foldl_aheadAfter_plain _ hfront']
  dsimp only at hahead ⊢
  rw [ruleAhead_behind] at hahead ⊢
  cases hfold : ts.foldl aheadAfter (.inr 0) with
  | inl found =>
      rw [hfold] at hahead
      obtain rfl : found = false := hahead
      cases h with
      | intro hechoes _ =>
          rw [List.foldl_append, aheadAfter_echoes hechoes, hfold, foldl_aheadAfter_inl]
  | inr d =>
      rw [aheadAfter_eq_inr.mpr (preludeAfter_settles h (aheadAfter_eq_inr.mp hfold))]
      dsimp only
      rw [ruleAhead_behind, foldl_aheadAfter_plain _ hmark]
      cases rest with
      | nil => rfl
      | cons t rest => rcases hrest t rfl with hkind | hkind <;> simp [ruleAhead, hkind]

theorem declarationAhead?_eq_none (hrule : ruleAhead 0 ts = true) :
    declarationAhead? ts = none ↔
      ∀ name, (opening? ts).map Opening.name = some name ->
        (ascii "--").isPrefixOf name = false := by
  rw [declarationAhead?, hrule]
  cases opening? ts with
  | none => simp
  | some opening =>
      cases hprefix : (ascii "--").isPrefixOf opening.name <;> simp_all

end Sheet
end StyleTrim
