import Mathlib.Data.List.Forall2
import StyleTrim.Proofs.Token.Rewritten

/-!
# Writing settles

The closers that a run owes are read behind it as tokens of their own. Written again, the tokens
that are read from the text of a run give the same text: a space that was kept is kept again, a
separator that was put in is put in again, and no bracket is left open any more.
-/

namespace StyleTrim
namespace Token

open Lexeme

/-!
## Closers
-/

def IsCloser (b : UInt8) : Prop :=
  b = 0x29 ∨ b = 0x5D ∨ b = 0x7D

def Closes (b : UInt8) (c : Token) : Prop :=
  IsCloser b ∧ ∃ kind, punctuation? b = some kind ∧ c.lexeme = verbatim kind [b]

theorem isCloser_of_owedAfter {owed : Bytes} {t : Token} (h : ∀ b ∈ owed, IsCloser b) :
    ∀ b ∈ owedAfter owed t, IsCloser b := by
  unfold owedAfter
  split
  · rename_i c hc
    intro b hb
    rcases List.mem_cons.mp hb with rfl | hb
    · unfold closer? at hc
      split at hc <;> cases hc
      · exact Or.inl rfl
      · exact Or.inl rfl
      · exact Or.inr (Or.inl rfl)
      · exact Or.inr (Or.inr rfl)
    · exact h b hb
  · split
    · split
      · intro b hb
        exact h b (List.mem_cons_of_mem _ hb)
      · exact h
    · exact h

theorem isCloser_of_foldl {owed : Bytes} (h : ∀ b ∈ owed, IsCloser b) (ts : List Token) :
    ∀ b ∈ ts.foldl owedAfter owed, IsCloser b := by
  induction ts generalizing owed with
  | nil => exact h
  | cons t ts ih => exact ih (isCloser_of_owedAfter h)

theorem isCloser_of_owed (ts : List Token) : ∀ b ∈ owed ts, IsCloser b :=
  isCloser_of_foldl (fun _ hb => absurd hb List.not_mem_nil) ts

/-- A mark is read in front of every text. -/
theorem streamFrom_punctuation {b : UInt8} {kind : TokenKind} (offset : Nat) (s : Bytes)
    (h : punctuation? b = some kind) :
    streamFrom offset (b :: s) =
      ofLexeme (verbatim kind [b]) offset false :: streamFrom (offset + 1) s := by
  have hstands : Stands (verbatim kind [b]) s := by
    apply stands_of_shape (.punctuation h)
    intro hraw
    rw [(List.cons.inj hraw).1] at h
    cases h
  exact streamFrom_of_stands offset hstands

theorem punctuation_of_isCloser {b : UInt8} (h : IsCloser b) :
    ∃ kind, punctuation? b = some kind := by
  rcases h with rfl | rfl | rfl
  · exact ⟨_, rfl⟩
  · exact ⟨_, rfl⟩
  · exact ⟨_, rfl⟩

theorem read_closers {bs : Bytes} (h : ∀ b ∈ bs, IsCloser b) (tail : Bytes) (offset : Nat) :
    ∃ cs offset', streamFrom offset (bs ++ tail) = cs ++ streamFrom offset' tail ∧
      List.Forall₂ Closes bs cs := by
  induction bs generalizing offset with
  | nil => exact ⟨[], offset, rfl, .nil⟩
  | cons b bs ih =>
      have hb := h b List.mem_cons_self
      rcases punctuation_of_isCloser hb with ⟨kind, hkind⟩
      rcases ih (fun c hc => h c (List.mem_cons_of_mem _ hc)) (offset + 1) with
        ⟨cs, offset', heq, hclosers⟩
      refine ⟨ofLexeme (verbatim kind [b]) offset false :: cs, offset', ?_,
        .cons ⟨hb, kind, hkind, rfl⟩ hclosers⟩
      rw [List.cons_append, streamFrom_punctuation offset _ hkind, heq]
      rfl

/-!
## The tokens of a written run
-/

/-- The tokens that are read from the text of a whole run: those that answer to it, and its
closers. -/
inductive Settles (place : Place) (ts : List Token) : List Token -> Prop where
  | intro {us cs : List Token} (hechoes : Echoes place none false ts us)
      (hclosers : List.Forall₂ Closes (owed ts) cs) : Settles place ts (us ++ cs)

theorem blunt_of_isCloser {b : UInt8} (h : IsCloser b) (s : Bytes) :
    Blunt (b :: s) ∧ Byte.isSpace b = false := by
  rcases h with rfl | rfl | rfl
  · exact ⟨.cons (by decide) (by decide) s, by decide⟩
  · exact ⟨.cons (by decide) (by decide) s, by decide⟩
  · exact ⟨.cons (by decide) (by decide) s, by decide⟩

/-- A text that no token goes on with, and that no escape takes anything of. -/
structure EndsRun (s : Bytes) : Prop where
  blunt : Blunt s
  space : ∀ b ∈ s.head?, Byte.isSpace b = false

theorem read_write {place : Place} {ts : List Token} {tail : Bytes} (h : Lexed ts)
    (hsep : separable place none false ts = true) (htail : EndsRun tail) (offset : Nat) :
    ∃ us offset', streamFrom offset (write place ts ++ tail) = us ++ streamFrom offset' tail ∧
      Settles place ts us := by
  have hends : EndsRun (owed ts ++ tail) := by
    cases howed : owed ts with
    | nil => exact htail
    | cons b bs =>
        have hb := isCloser_of_owed ts b (by simp [howed])
        rcases blunt_of_isCloser hb (bs ++ tail) with ⟨hblunt, hspace⟩
        refine ⟨hblunt, ?_⟩
        intro c hc
        obtain rfl : b = c := by simpa using hc
        exact hspace
  rcases (read_writeAfter hends.blunt hends.space h hsep).1 offset with ⟨us, next, hread, hechoes⟩
  rcases read_closers (isCloser_of_owed ts) tail next with ⟨cs, offset', hclosers, hall⟩
  refine ⟨us ++ cs, offset', ?_, .intro hechoes hall⟩
  rw [write, List.append_assoc, hread, hclosers, List.append_assoc]

/-!
## Written again

A token that answers to another one is that token, or both are strings or addresses, which no joint
looks into.
-/

def isMute (t : Token) : Prop :=
  t.kind = .string ∨ t.kind = .badString ∨ t.kind = .url ∨ t.kind = .badUrl

theorem becomes_cases {t u : Token} (h : t.Becomes u.lexeme) :
    u.lexeme = t.lexeme ∨ (t.isMute ∧ u.isMute) := by
  cases hopen : t.isOpen with
  | false => exact Or.inl (h.same hopen)
  | true =>
      right
      have hkind := h.kind
      rcases Bool.or_eq_true_iff.mp hopen with hstring | haddress
      · rw [ClosesAs, if_pos hstring] at hkind
        refine ⟨?_, Or.inl hkind⟩
        simp only [isOpenString, Bool.or_eq_true, Bool.and_eq_true, beq_iff_eq] at hstring
        rcases hstring with hbad | ⟨hgood, _⟩
        · exact Or.inr (Or.inl hbad)
        · exact Or.inl hgood
      · rw [ClosesAs, if_neg (by simp [isOpenString_of_isOpenAddress haddress]),
          if_pos haddress] at hkind
        simp only [isOpenAddress, Bool.or_eq_true, Bool.and_eq_true, beq_iff_eq] at haddress
        constructor
        · rcases haddress.1 with hurl | hbad
          · exact Or.inr (Or.inr (Or.inl hurl))
          · exact Or.inr (Or.inr (Or.inr hbad))
        · rcases hkind with hurl | ⟨hbad, _⟩
          · exact Or.inr (Or.inr (Or.inl hurl))
          · exact Or.inr (Or.inr (Or.inr hbad))

/-- The token `u` answers to the token `t`. -/
structure Answers (t u : Token) : Prop where
  becomes : t.Becomes u.lexeme
  head : u.raw.head? = t.raw.head?

theorem Answers.kind_beq {t u : Token} (h : Answers t u) (kind : TokenKind)
    (hkind : kind ≠ .string ∧ kind ≠ .badString ∧ kind ≠ .url ∧ kind ≠ .badUrl) :
    (u.kind == kind) = (t.kind == kind) := by
  rcases becomes_cases h.becomes with hsame | ⟨ht, hu⟩
  · rw [show u.kind = t.kind from congrArg Lexeme.kind hsame]
  · have hno : ∀ v : Token, v.isMute -> (v.kind == kind) = false := by
      intro v hv
      rw [beq_eq_false_iff_ne]
      rintro rfl
      rcases hkind with ⟨h1, h2, h3, h4⟩
      rcases hv with hv | hv | hv | hv
      · exact h1 hv
      · exact h2 hv
      · exact h3 hv
      · exact h4 hv
    rw [hno u hu, hno t ht]

theorem Answers.isDelim {t u : Token} (h : Answers t u) (b : UInt8) :
    u.isDelim b = t.isDelim b := by
  rcases becomes_cases h.becomes with hsame | ⟨ht, hu⟩
  · rw [Token.isDelim, Token.isDelim, show u.kind = t.kind from congrArg Lexeme.kind hsame,
      show u.value = t.value from congrArg Lexeme.value hsame]
  · have hno : ∀ v : Token, v.isMute -> v.isDelim b = false := by
      intro v hv
      rcases hv with hv | hv | hv | hv <;> simp [Token.isDelim, hv]
    rw [hno u hu, hno t ht]

theorem Answers.needsSeparator {left right left' right' : Token} (hleft : Answers left left')
    (hright : Answers right right') :
    Token.needsSeparator left' right' = Token.needsSeparator left right := by
  have hempty : ∀ {t u : Token}, Answers t u -> u.raw.isEmpty = t.raw.isEmpty := by
    intro t u h
    have hhead := h.head
    cases ht : t.raw <;> cases hu : u.raw <;> simp_all
  by_cases hnil : left.raw = []
  · have hnil' : left'.raw.isEmpty = true := by rw [hempty hleft, hnil]; rfl
    simp [Token.needsSeparator, hnil, hnil']
  · have hnil' : left'.raw ≠ [] := by
      intro hno
      have hsame := hempty hleft
      rw [hno] at hsame
      exact hnil (by simpa using hsame.symm)
    cases hraw : right.raw with
    | nil =>
        have hraw' : right'.raw = [] := by
          have hsame := hempty hright
          rw [hraw] at hsame
          simpa using hsame
        simp [Token.needsSeparator, hraw, hraw']
    | cons b x =>
        have hhead := hright.head
        rw [hraw] at hhead
        rcases List.head?_eq_some_iff.mp hhead with ⟨y, hy⟩
        rw [needsSeparator_eq hnil hraw, needsSeparator_eq hnil' hy]
        have hparen := hright.kind_beq .leftParen (by decide)
        have hnumber := hright.kind_beq .number (by decide)
        have hdimension := hright.kind_beq .dimension (by decide)
        have hcontinues : continuesNumber b right'.kind = continuesNumber b right.kind := by
          simp only [continuesNumber, bne, hnumber, hdimension]
        rw [hparen, hcontinues]
        rcases becomes_cases hleft.becomes with hsame | ⟨ht, hu⟩
        · rw [show left'.kind = left.kind from congrArg Lexeme.kind hsame,
            show left'.value = left.value from congrArg Lexeme.value hsame]
        · rcases ht with ht | ht | ht | ht <;> rcases hu with hu | hu | hu | hu <;> rw [ht, hu]

theorem Answers.dropsSpace (place : Place) {left right left' right' : Token}
    (hleft : Answers left left') (hright : Answers right right') :
    Token.dropsSpace place left' right' = Token.dropsSpace place left right := by
  have hcombinator : ∀ {t u : Token}, Answers t u -> u.isCombinator = t.isCombinator := by
    intro t u h
    simp only [isCombinator, h.isDelim]
  have hkind : ∀ {t u : Token}, Answers t u -> ∀ kind ∈ [TokenKind.comma, .leftParen, .function,
      .rightParen, .colon], (u.kind == kind) = (t.kind == kind) := by
    intro t u h kind hmem
    apply h.kind_beq
    simp only [List.mem_cons, List.not_mem_nil, or_false] at hmem
    rcases hmem with rfl | rfl | rfl | rfl | rfl <;> decide
  cases place <;>
    simp only [Token.dropsSpace, opensGroup, hcombinator hleft, hcombinator hright,
      hkind hleft .comma (by simp), hkind hright .comma (by simp),
      hkind hleft .leftParen (by simp), hkind hleft .function (by simp),
      hkind hright .rightParen (by simp), hkind hleft .colon (by simp),
      hkind hright .colon (by simp)]

theorem joint_again {place : Place} {space : Bool} {left right left' right' : Token}
    {gap : List Token} (hleft : Answers left left') (hright : Answers right right')
    (hbetween : Between right' (joint place left space right) gap) :
    joint place left' (!gap.isEmpty) right' = joint place left space right := by
  have hsep := hleft.needsSeparator hright
  have hdrops := hleft.dropsSpace place hright
  generalize hj : joint place left space right = j at hbetween ⊢
  unfold joint at hj ⊢
  rw [hsep, hdrops]
  cases hbetween with
  | nothing =>
      cases hn : Token.needsSeparator left right with
      | false => simp
      | true =>
          exfalso
          rw [hn] at hj
          split at hj
          · cases hj
          · rw [if_pos rfl] at hj
            split at hj
            · exact absurd hj (by decide)
            · cases hj
  | comment hu =>
      split at hj
      · cases hj
      · split at hj
        · rename_i hn
          split at hj
          · rename_i hcomment
            simp only [Bool.and_eq_true] at hcomment
            simp only [hn, hu, hcomment.2, Bool.false_and, Bool.false_eq_true, if_false, if_true,
              List.isEmpty_nil, Bool.not_true, Bool.not_false, Bool.and_self]
            exact hj
          · cases hj
        · cases hj
  | space hw =>
      cases hd : Token.dropsSpace place left right with
      | false => simp
      | true =>
          rw [hd] at hj
          split at hj
          · rename_i hno
            simp at hno
          · split at hj
            · rename_i hn
              simp [hn]
            · cases hj

/-!
The last token written is carried along on both sides.
-/

def LastAnswers : Option Token -> Option Token -> Prop
  | none, none => True
  | some t, some u => Answers t u
  | _, _ => False

theorem isSilent_of_answers {t u : Token} (h : Answers t u) (hsilent : t.isSilent = false) :
    u.isSilent = false := by
  have hend := h.kind_beq .endOfText (by decide)
  rw [isSilent, hend, h.isDelim]
  exact hsilent

theorem closedText_of_answers {t u : Token} (h : Answers t u) : u.closedText = t.closedText := by
  have hclosed := h.becomes.closed
  have hunterminated : u.unterminated = false := hclosed.1
  have hbad : u.kind ≠ .badString := hclosed.2
  rw [← h.becomes.raw, closedText_of_closed]
  · rfl
  · simp [isOpenString, hunterminated, hbad]
  · simp [isOpenAddress, hunterminated]

theorem writeAfter_none (place : Place) (space : Bool) (ts : List Token) :
    writeAfter place none space ts = writeAfter place none false ts := by
  induction ts generalizing space with
  | nil => rfl
  | cons t ts ih =>
      by_cases hsilent : t.isSilent = true
      · simp only [writeAfter, hsilent, if_true]
        exact ih space
      · by_cases hspace : t.kind = .whitespace
        · rw [writeAfter_space ts hspace, writeAfter_space ts hspace]
        · rw [writeAfter_token ts hspace (by simpa using hsilent),
            writeAfter_token ts hspace (by simpa using hsilent)]
          rfl

theorem space_kind {w : Token} (h : w.lexeme = ⟨.whitespace, [0x20], [0x20], false⟩) :
    w.kind = .whitespace :=
  congrArg Lexeme.kind h

theorem writeAfter_between {place : Place} {last : Option Token} {u : Token} {joint : Bytes}
    {gap : List Token} (ts : List Token) (h : Between u joint gap) :
    writeAfter place last false (gap ++ ts) = writeAfter place last (!gap.isEmpty) ts := by
  cases h with
  | nothing => rfl
  | comment _ => rfl
  | space hw => exact writeAfter_space ts (space_kind hw)

theorem answers_space {t u : Token} (h : Answers t u) (hspace : t.kind ≠ .whitespace) :
    u.kind ≠ .whitespace := by
  have hsame := h.kind_beq .whitespace (by decide)
  rw [beq_eq_false_iff_ne.mpr hspace] at hsame
  exact beq_eq_false_iff_ne.mp hsame

theorem writeAfter_echoes {place : Place} {last : Option Token} {space : Bool}
    {ts us : List Token} (h : Echoes place last space ts us) {last' : Option Token}
    (hlast : LastAnswers last last') (more : List Token) :
    ∃ last'', writeAfter place last' false (us ++ more) =
      writeAfter place last space ts ++ writeAfter place last'' false more := by
  induction h generalizing last' with
  | nil => exact ⟨last', rfl⟩
  | space hspace htail ih =>
      rw [writeAfter_space _ hspace]
      exact ih hlast
  | slash hslash htail ih =>
      rw [writeAfter_slash _ hslash]
      exact ih hlast
  | token hspace hsilent hbetween hu hhead htail ih =>
      rename_i last space t u gap ts us
      have hanswers : Answers t u := ⟨hu, hhead⟩
      rcases @ih (some u) hanswers with ⟨last'', hrest⟩
      refine ⟨last'', ?_⟩
      have hjoint : jointAfter place last' (!gap.isEmpty) u = jointAfter place last space t := by
        match last, last', hlast with
        | none, none, _ => rfl
        | some left, some left', hleft => exact joint_again hleft hanswers hbetween
      rw [List.append_assoc, writeAfter_between _ hbetween, List.cons_append,
        writeAfter_token _ (answers_space hanswers hspace) (isSilent_of_answers hanswers hsilent),
        hjoint, closedText_of_answers hanswers, hrest, writeAfter_token _ hspace hsilent]
      simp

/-!
## Nothing is owed twice
-/

theorem Answers.owedAfter {t u : Token} (h : Answers t u) (owed : Bytes) :
    Token.owedAfter owed u = Token.owedAfter owed t := by
  rcases becomes_cases h.becomes with hsame | ⟨ht, hu⟩
  · have hkind : u.kind = t.kind := congrArg Lexeme.kind hsame
    simp only [Token.owedAfter, closer?, closing?, hkind]
  · have hno : ∀ v : Token, v.isMute -> Token.owedAfter owed v = owed := by
      intro v hv
      rcases hv with hv | hv | hv | hv <;> simp [Token.owedAfter, closer?, closing?, hv]
    rw [hno u hu, hno t ht]

theorem owedAfter_plain {t : Token} (h : t.kind = .whitespace ∨ t.kind = .delim) (owed : Bytes) :
    owedAfter owed t = owed := by
  rcases h with hkind | hkind <;> simp [owedAfter, closer?, closing?, hkind]

theorem kind_of_isDelim {t : Token} {b : UInt8} (h : t.isDelim b = true) : t.kind = .delim := by
  simp only [isDelim, Bool.and_eq_true, beq_iff_eq] at h
  exact h.1

theorem foldl_echoes {σ : Type} {f : σ -> Token -> σ}
    (hspace : ∀ s t, t.kind = .whitespace -> f s t = s)
    (hdelim : ∀ s t, t.kind = .delim -> f s t = s)
    (hanswers : ∀ s t u, Answers t u -> f s u = f s t) {place : Place} {last : Option Token}
    {space : Bool} {ts us : List Token} (h : Echoes place last space ts us) (s : σ) :
    us.foldl f s = ts.foldl f s := by
  have hgap : ∀ {u : Token} {joint : Bytes} {gap : List Token}, Between u joint gap ->
      ∀ us s, (gap ++ us).foldl f s = us.foldl f s := by
    intro u joint gap hbetween us s
    cases hbetween with
    | nothing => rfl
    | comment _ => rfl
    | space hw =>
        rw [List.cons_append, List.nil_append, List.foldl_cons, hspace _ _ (space_kind hw)]
  induction h generalizing s with
  | nil => rfl
  | space hkind htail ih =>
      rw [List.foldl_cons, hspace _ _ hkind]
      exact ih s
  | slash hslash htail ih =>
      rw [List.foldl_cons, hdelim _ _ (kind_of_isDelim hslash)]
      exact ih s
  | token hkind hsilent hbetween hu hhead htail ih =>
      rw [hgap hbetween, List.foldl_cons, List.foldl_cons, hanswers _ _ _ ⟨hu, hhead⟩]
      exact ih _

theorem owed_echoes {place : Place} {last : Option Token} {space : Bool} {ts us : List Token}
    (h : Echoes place last space ts us) (owed : Bytes) :
    us.foldl owedAfter owed = ts.foldl owedAfter owed :=
  foldl_echoes (fun owed _ hspace => owedAfter_plain (Or.inl hspace) owed)
    (fun owed _ hdelim => owedAfter_plain (Or.inr hdelim) owed)
    (fun owed _ _ hanswers => hanswers.owedAfter owed) h owed

theorem Closes.owedAfter {b : UInt8} {c : Token} (h : Closes b c) (owed : Bytes) :
    Token.owedAfter (b :: owed) c = owed := by
  rcases h with ⟨hb, kind, hmark, hlexeme⟩
  have hkind : c.kind = kind := congrArg Lexeme.kind hlexeme
  rcases hb with rfl | rfl | rfl <;>
  · cases hmark
    simp [Token.owedAfter, closer?, closing?, hkind]

theorem owed_closers {bs : Bytes} {cs : List Token} (h : List.Forall₂ Closes bs cs) :
    cs.foldl owedAfter bs = [] := by
  induction h with
  | nil => rfl
  | cons hb _ ih =>
      rw [List.foldl_cons, hb.owedAfter]
      exact ih

theorem Closes.needsSeparator {b : UInt8} {c : Token} (h : Closes b c) (left : Token) :
    Token.needsSeparator left c = false := by
  rcases h with ⟨hb, kind, hmark, hlexeme⟩
  have hraw : c.raw = [b] := congrArg Lexeme.raw hlexeme
  have hkind : c.kind = kind := congrArg Lexeme.kind hlexeme
  have hparen : kind ≠ .leftParen := by
    rcases hb with rfl | rfl | rfl <;>
    · cases hmark
      decide
  exact needsSeparator_punctuation hmark hparen hraw hkind left

theorem writeAfter_closers {place : Place} {last : Option Token} {bs : Bytes} {cs : List Token}
    (h : List.Forall₂ Closes bs cs) : writeAfter place last false cs = bs := by
  induction h generalizing last with
  | nil => rfl
  | cons hb _ ih =>
      rename_i b c bs cs _
      have hjoint : jointAfter place last false c = [] := by
        cases last with
        | none => rfl
        | some left => simp [jointAfter, joint, hb.needsSeparator]
      rcases hb with ⟨hcloser, kind, hmark, hlexeme⟩
      have hkind : c.kind = kind := congrArg Lexeme.kind hlexeme
      have hraw : c.raw = [b] := congrArg Lexeme.raw hlexeme
      have hplain : c.kind ≠ .whitespace ∧ c.isSilent = false ∧ c.closedText = c.raw := by
        rw [hkind, isSilent, isDelim, closedText, isOpenString, isOpenAddress, hkind]
        rcases hcloser with rfl | rfl | rfl <;>
        · cases hmark
          simp
      rw [writeAfter_token _ hplain.1 hplain.2.1, hjoint, hplain.2.2, hraw, ih]
      rfl

/-- Writing settles: the tokens that are read from the text of a run have the same text. -/
theorem write_settles {place : Place} {ts us : List Token} (h : Settles place ts us) :
    write place us = write place ts := by
  cases h with
  | intro hechoes hclosers =>
      rename_i us cs
      have hnone : LastAnswers none none := trivial
      rcases writeAfter_echoes hechoes hnone cs with ⟨last, htext⟩
      have howed : owed (us ++ cs) = [] := by
        rw [owed, List.foldl_append, owed_echoes hechoes]
        exact owed_closers hclosers
      rw [write, htext, writeAfter_closers hclosers, howed, List.append_nil]
      rfl

theorem write_space {place : Place} {w : Token} (ts : List Token) (h : w.kind = .whitespace) :
    write place (w :: ts) = write place ts := by
  rw [write, writeAfter_space ts h, writeAfter_none, write, owed, List.foldl_cons,
    owedAfter_plain (Or.inl h)]
  rfl

end Token
end StyleTrim
