import Mathlib.Data.List.TakeWhile
import StyleTrim.Proofs.Token.Neighbours

/-!
# Reading what was written

A run of tokens is written with its white space shrunk, its comments gone and its open ends closed.
`Echoes` says how the tokens that are read from that text answer to the tokens that were written:
each becomes one token again, and between two of them there is a single space or nothing, as the
joint between them tells. Only a lone backslash becomes nothing. The run has to be `separable`: no
two neighbours may clash.
-/

namespace StyleTrim
namespace Token

open Lexeme

/-!
## Runs that can be written
-/

def clashes (place : Place) (left : Token) (space : Bool) (right : Token) : Bool :=
  if joint place left space right = [] then left.fuses right
  else joint place left space right == [0x20] && left.takesSpace

/-- No two neighbours clash when the tokens are written behind the last one. A lone backslash is
left out. -/
def separable (place : Place) (last : Option Token) (space : Bool) : List Token -> Bool
  | [] => true
  | t :: ts =>
      if t.kind = .whitespace then separable place last true ts
      else if t.isDelim 0x5C then separable place last space ts
      else
        last.all (fun left => !clashes place left space t) && separable place (some t) false ts

/-- The tokens without lone backslashes. -/
def unslashed (ts : List Token) : List Token :=
  ts.filter fun t => !t.isDelim 0x5C

/-- There is no lone backslash among the tokens. -/
def NoSlash (ts : List Token) : Prop :=
  ∀ t ∈ ts, t.isDelim 0x5C = false

theorem NoSlash.tail {t : Token} {ts : List Token} (h : NoSlash (t :: ts)) : NoSlash ts :=
  fun u hu => h u (List.mem_cons_of_mem t hu)

theorem NoSlash.unslashed {ts : List Token} (h : NoSlash ts) : unslashed ts = ts := by
  rw [Token.unslashed, List.filter_eq_self]
  intro t ht
  rw [h t ht]
  rfl

/-!
## Tokens of a text

What is known of tokens because they were read from one text: each has a shape, only the last one
can lack its end, and an address in quotes has its string behind it.
-/

/-- The first token that is not white space. -/
def firstVisible (ts : List Token) : Option Token :=
  ts.find? fun t => t.kind != .whitespace

def isQuoted (t : Token) : Prop :=
  t.kind = .string ∨ t.kind = .badString

inductive Lexed : List Token -> Prop where
  | nil : Lexed []
  | cons {t : Token} {ts : List Token} (hshape : ∃ s, Shape t.lexeme s)
      (hnext : ∀ u ∈ ts.head?, u.afterComment = false ->
        ∃ s, Shape t.lexeme (u.raw ++ s) ∧ Shape u.lexeme s)
      (hlast : t.unterminated = true -> ts = [])
      (hargument : t.kind = .function -> sameWord t.value (ascii "url") = true ->
        ∃ u, firstVisible ts = some u ∧ u.isQuoted)
      (htail : Lexed ts) : Lexed (t :: ts)

theorem gap_cases {gap s : Bytes} (h : Gap gap s) :
    gap = [] ∨ ∃ x, gap = 0x2F :: 0x2A :: x := by
  rcases h with ⟨v, hscan⟩
  rcases Reader.comment.scan_cases hscan with ⟨rfl, _⟩ | ⟨p, y, w, rfl, _, hread, _⟩
  · exact Or.inl rfl
  · right
    simp only [Reader.comment] at hread
    split at hread
    · simp only [Option.some.injEq, Prod.mk.injEq] at hread
      rcases hread with ⟨rfl, _⟩
      exact ⟨_, rfl⟩
    · cases hread

theorem isQuoted_of_shape {t : Token} {s : Bytes} (h : Shape t.lexeme s)
    (hquote : startsWithQuote (t.raw ++ s) = true) : t.isQuoted := by
  rcases List.exists_cons_of_ne_nil (raw_ne_nil h) with ⟨b, x, hraw⟩
  rcases read_of_head h (b := b) (by rw [hraw]; rfl) with ⟨y, _, hread⟩
  have hb : Byte.isQuote b = true := by
    change t.raw = b :: x at hraw
    rw [hraw] at hquote
    exact hquote
  rw [read_quote _ hb] at hread
  have hkind : (readString b (y ++ s)).1.kind = .string ∨
      (readString b (y ++ s)).1.kind = .badString := by
    unfold readString
    dsimp only
    split
    · exact Or.inl rfl
    · split
      · exact Or.inl rfl
      · exact Or.inr rfl
  rw [hread] at hkind
  exact hkind

theorem laid_quote {offset : Nat} {s : Bytes} {ts : List Token} (h : Laid offset s ts)
    (hquote : startsWithQuote s = true) :
    ∃ t rest ts', s = t.raw ++ rest ∧ ts = t :: ts' ∧ t.offset = offset ∧ t.isQuoted ∧
      Shape t.lexeme rest ∧ Laid t.stop rest ts' := by
  cases h with
  | ending hgap =>
      rcases gap_cases hgap with rfl | ⟨x, rfl⟩
      · cases hquote
      · cases hquote
  | token hgap hshape htail =>
      rename_i gap s l ts
      rcases gap_cases hgap with rfl | ⟨x, rfl⟩
      · refine ⟨ofLexeme l offset false, s, ts, rfl, rfl, rfl, ?_, hshape, htail⟩
        exact isQuoted_of_shape (t := ofLexeme l offset false) hshape hquote
      · cases hquote

/-- The text `s` begins with the string `t`, white space apart. The tokens `ws` are the white space
`gap`, and behind the string stand the text `rest` and the tokens `ts`. -/
structure StringFirst (offset : Nat) (s gap : Bytes) (ws : List Token) (t : Token) (rest : Bytes)
    (ts : List Token) : Prop where
  text : s = gap ++ (t.raw ++ rest)
  blank : gap.all Byte.isSpace = true
  space : ∀ w ∈ ws, w.kind = .whitespace
  place : t.offset = offset + gap.length
  quoted : t.isQuoted
  shape : Shape t.lexeme rest
  laid : Laid t.stop rest ts

theorem laid_argument {offset : Nat} {s : Bytes} {ts : List Token} (h : Laid offset s ts)
    (hquote : startsWithQuote (s.dropWhile Byte.isSpace) = true) :
    ∃ gap ws t rest ts', ts = ws ++ t :: ts' ∧ StringFirst offset s gap ws t rest ts' := by
  cases h with
  | ending hgap =>
      rcases gap_cases hgap with rfl | ⟨x, rfl⟩
      · cases hquote
      · cases hquote
  | token hgap hshape htail =>
      rename_i gap s l ts
      rcases gap_cases hgap with rfl | ⟨x, rfl⟩
      · by_cases hspace : l.kind = .whitespace
        · cases hshape with
          | whitespace hne hall hstop =>
              rename_i x
              rw [List.nil_append, dropWhile_append_of_stop hall hstop] at hquote
              rcases laid_quote htail hquote with
                ⟨t, rest, ts', rfl, rfl, hplace, hquoted, hshape, hlaid⟩
              exact ⟨x, [ofLexeme ⟨.whitespace, [0x20], x, false⟩ offset false], t, rest, ts', rfl,
                rfl, hall, List.forall_mem_singleton.mpr rfl, hplace, hquoted, hshape, hlaid⟩
          | punctuation hmark => exact absurd hspace (ne_of_punctuation hmark rfl)
          | _ => cases hspace
        · have hfront : startsWithQuote (l.raw ++ s) = true := by
            rcases List.exists_cons_of_ne_nil (raw_ne_nil hshape) with ⟨b, x, hraw⟩
            have hb : Byte.isSpace b = false := by
              rw [Bool.eq_false_iff]
              intro hb
              exact hspace (shape_of_isSpace hshape (by rw [hraw]; rfl) hb)
            rw [List.nil_append, hraw] at hquote
            rw [hraw]
            simpa [List.dropWhile_cons, hb] using hquote
          rcases laid_quote (.token hgap hshape htail) hfront with
            ⟨t, rest, ts', htext, hts, hplace, hquoted, hshape', hlaid⟩
          exact ⟨[], [], t, rest, ts', hts, htext, rfl, nofun, hplace, hquoted, hshape', hlaid⟩
      · cases hquote

theorem isQuoted_kind {t : Token} (h : t.isQuoted) :
    t.kind ≠ .whitespace ∧ t.kind ≠ .endOfText := by
  rcases h with hkind | hkind <;> simp [hkind]

theorem firstVisible_of_space {t : Token} {ws ts : List Token}
    (hspace : ∀ w ∈ ws, w.kind = .whitespace) (ht : t.kind ≠ .whitespace) :
    firstVisible (ws ++ t :: ts) = some t := by
  have hnone : ws.find? (fun w => w.kind != .whitespace) = none := by
    rw [List.find?_eq_none]
    intro w hw
    simp [hspace w hw]
  rw [firstVisible, List.find?_append, hnone, Option.none_or]
  exact List.find?_cons_of_pos (by simp [ht])

theorem StringFirst.firstVisible {offset : Nat} {s gap rest : Bytes} {ws ts : List Token}
    {t : Token} (h : StringFirst offset s gap ws t rest ts) (ts' : List Token) :
    Token.firstVisible (ws ++ t :: ts') = some t :=
  firstVisible_of_space h.space (isQuoted_kind h.quoted).1

theorem StringFirst.firstVisible_body {offset : Nat} {s gap rest : Bytes} {ws ts : List Token}
    {t : Token} (h : StringFirst offset s gap ws t rest ts) :
    Token.firstVisible (body (ws ++ t :: ts)) = some t := by
  have hspace : ∀ w ∈ ws, (w.kind != .endOfText) = true := by
    intro w hw
    rw [h.space w hw]
    rfl
  rw [body, List.takeWhile_append_of_pos hspace,
    List.takeWhile_cons_of_pos (by simp [(isQuoted_kind h.quoted).2])]
  exact h.firstVisible _

theorem opensAddress_of_function {l : Lexeme} {s : Bytes} (h : Shape l s)
    (hkind : l.kind = .function) : opensAddress l.value s = false := by
  cases h with
  | function _ _ hargument => exact hargument
  | punctuation hmark => exact absurd hkind (ne_of_punctuation hmark rfl)
  | _ => cases hkind

theorem startsWithQuote_of_function {l : Lexeme} {s : Bytes} (h : Shape l s)
    (hkind : l.kind = .function) (hurl : sameWord l.value (ascii "url") = true) :
    startsWithQuote (s.dropWhile Byte.isSpace) = true := by
  have hno := opensAddress_of_function h hkind
  simpa [opensAddress, hurl] using hno

theorem rest_of_unterminated {l : Lexeme} {s : Bytes} (h : Shape l s)
    (hopen : l.unterminated = true) : s = [] := by
  cases h <;> first | rfl | cases hopen

theorem lexed_of_laid {offset : Nat} {s : Bytes} {ts : List Token} (h : Laid offset s ts) :
    Lexed (body ts) := by
  induction h with
  | ending hgap => exact .nil
  | token hgap hshape htail ih =>
      rename_i offset gap s l ts
      have hkind := kind_ne_endOfText hshape
      have hbody : body (ofLexeme l (offset + gap.length) (!gap.isEmpty) :: ts) =
          ofLexeme l (offset + gap.length) (!gap.isEmpty) :: body ts := by
        simp [body, ofLexeme, hkind]
      rw [hbody]
      refine .cons ⟨s, hshape⟩ ?_ ?_ ?_ ih
      · intro u hu hcomment
        cases htail with
        | ending _ => cases hu
        | token hgap' hshape' htail' =>
            rename_i gap' s' l' ts'
            rw [body, List.takeWhile_cons_of_pos
              (by simpa [ofLexeme] using kind_ne_endOfText hshape')] at hu
            obtain rfl := Option.some.inj hu
            have hempty : gap' = [] := by simpa [ofLexeme] using hcomment
            subst hempty
            exact ⟨s', hshape, hshape'⟩
      · intro hopen
        have hrest : s = [] := rest_of_unterminated hshape hopen
        cases htail with
        | ending _ => rfl
        | token _ hshape' _ =>
            simp only [List.append_eq_nil_iff] at hrest
            exact absurd hrest.2.1 (raw_ne_nil hshape')
      · intro hfunction hurl
        rcases laid_argument htail (startsWithQuote_of_function hshape hfunction hurl) with
          ⟨gap', ws, t, rest, ts', rfl, hstring⟩
        exact ⟨t, hstring.firstVisible_body, hstring.quoted⟩

theorem laid_body {offset : Nat} {s : Bytes} {ts : List Token} (h : Laid offset s ts) :
    ∃ e, ts = body ts ++ [e] ∧ e.kind = .endOfText := by
  induction h with
  | ending hgap => exact ⟨_, rfl, rfl⟩
  | token hgap hshape htail ih =>
      rcases ih with ⟨e, hts, he⟩
      refine ⟨e, ?_, he⟩
      rw [body, List.takeWhile_cons_of_pos (by simpa [ofLexeme] using kind_ne_endOfText hshape),
        ← body, List.cons_append, ← hts]

/-- The tokens of a text, up to its end. -/
theorem lexed_tokenize (s : Bytes) : Lexed (body (tokenize s)) :=
  lexed_of_laid (laid_tokenize s)

theorem body_eq_self {ts : List Token} (h : ∀ t ∈ ts, t.kind ≠ .endOfText) : body ts = ts := by
  rw [body, List.takeWhile_eq_self_iff]
  intro t ht
  exact bne_iff_ne.mpr (h t ht)

theorem Lexed.exists_shape {ts : List Token} (h : Lexed ts) :
    ∀ t ∈ ts, ∃ s, Shape t.lexeme s := by
  induction h with
  | nil => exact nofun
  | cons hshape _ _ _ _ ih =>
      intro t ht
      rcases List.mem_cons.mp ht with rfl | ht
      · exact hshape
      · exact ih t ht

theorem Lexed.kind_ne_endOfText {ts : List Token} (h : Lexed ts) :
    ∀ t ∈ ts, t.kind ≠ .endOfText := by
  intro t ht
  rcases h.exists_shape t ht with ⟨s, hshape⟩
  exact Lexeme.kind_ne_endOfText hshape

theorem Lexed.tail {t : Token} {ts : List Token} (h : Lexed (t :: ts)) : Lexed ts := by
  cases h with
  | cons _ _ _ _ htail => exact htail

theorem Lexed.suffix {xs ys : List Token} (h : Lexed (xs ++ ys)) : Lexed ys := by
  induction xs with
  | nil => exact h
  | cons x xs ih =>
      cases h with
      | cons _ _ _ _ htail => exact ih htail

theorem firstVisible_append (xs ys : List Token) :
    firstVisible (xs ++ ys) = (firstVisible xs).or (firstVisible ys) := by
  simp [firstVisible, List.find?_append]

theorem Lexed.front {xs ys : List Token} (h : Lexed (xs ++ ys))
    (hcut : ∀ u, firstVisible ys = some u -> ¬u.isQuoted) : Lexed xs := by
  induction xs with
  | nil => exact .nil
  | cons x xs ih =>
      cases h with
      | cons hshape hnext hlast hargument htail =>
          refine .cons hshape ?_ ?_ ?_ (ih htail)
          · intro u hu
            cases xs with
            | nil => cases hu
            | cons x xs => exact hnext u hu
          · intro hopen
            exact (List.append_eq_nil_iff.mp (hlast hopen)).1
          · intro hfunction hurl
            rcases hargument hfunction hurl with ⟨u, hu, hquoted⟩
            have hu' : firstVisible (xs ++ ys) = some u := hu
            rw [firstVisible_append] at hu'
            cases hfirst : firstVisible xs with
            | some w =>
                rw [hfirst] at hu'
                cases hu'
                exact ⟨u, rfl, hquoted⟩
            | none =>
                rw [hfirst] at hu'
                exact absurd hquoted (hcut u hu')

/-!
## How tokens answer to those that were written
-/

def jointAfter (place : Place) (last : Option Token) (space : Bool) (t : Token) : Bytes :=
  match last with
  | none => []
  | some left => joint place left space t

/-- The tokens that are read from a joint, in front of the token `u`. -/
inductive Between (u : Token) : Bytes -> List Token -> Prop where
  | nothing : Between u [] []
  | comment (hu : u.afterComment = true) : Between u [0x2F, 0x2A, 0x2A, 0x2F] []
  | space {w : Token} (hw : w.lexeme = ⟨.whitespace, [0x20], [0x20], false⟩) :
      Between u [0x20] [w]

/-- The tokens that are read from the text of a run. -/
inductive Echoes (place : Place) : Option Token -> Bool -> List Token -> List Token -> Prop where
  | nil {last : Option Token} {space : Bool} : Echoes place last space [] []
  | space {last : Option Token} {space : Bool} {t : Token} {ts us : List Token}
      (hspace : t.kind = .whitespace) (htail : Echoes place last true ts us) :
      Echoes place last space (t :: ts) us
  | slash {last : Option Token} {space : Bool} {t : Token} {ts us : List Token}
      (hslash : t.isDelim 0x5C = true) (htail : Echoes place last space ts us) :
      Echoes place last space (t :: ts) us
  | token {last : Option Token} {space : Bool} {t u : Token} {gap ts us : List Token}
      (hspace : t.kind ≠ .whitespace) (hsilent : t.isSilent = false)
      (hbetween : Between u (jointAfter place last space t) gap) (hu : t.Becomes u.lexeme)
      (hhead : u.raw.head? = t.raw.head?) (htail : Echoes place (some t) false ts us) :
      Echoes place last space (t :: ts) (gap ++ u :: us)

/-!
## Reading a token in front of what is written behind it
-/

/-- The next token of a stream. -/
theorem streamFrom_of_stands {l : Lexeme} {s : Bytes} (offset : Nat) (h : Stands l s) :
    streamFrom offset (l.raw ++ s) =
      ofLexeme l offset false :: streamFrom (offset + l.raw.length) s := by
  rcases reads_of_shape h.shape with ⟨b, t, heq, hread⟩
  have hgap : Reader.comment.scan (l.raw ++ s) = ⟨[], [], b :: t⟩ := by
    rw [Reader.comment.scan_none h.comment, heq]
  rw [streamFrom_cons offset (by rw [hgap]), hgap, hread]
  rfl

theorem streamFrom_end (offset : Nat) : streamFrom offset [] = [endAt offset false] := by
  have hscan : Reader.comment.scan [] = ⟨[], [], []⟩ := Reader.comment.scan_none rfl
  rw [streamFrom_nil offset (by rw [hscan]), hscan]
  rfl

theorem body_of_streamFrom {us : List Token} {offset offset' : Nat} {s : Bytes}
    (h : streamFrom offset s = us ++ streamFrom offset' []) : body (streamFrom offset s) = us := by
  rcases laid_body (laid_streamFrom offset s) with ⟨e, he, _⟩
  rw [streamFrom_end, he] at h
  exact (List.append_inj' h rfl).1

theorem streamFrom_of_comment {l : Lexeme} {s : Bytes} (offset : Nat) (h : Stands l s) :
    streamFrom offset ([0x2F, 0x2A, 0x2A, 0x2F] ++ (l.raw ++ s)) =
      ofLexeme l (offset + 4) true :: streamFrom (offset + 4 + l.raw.length) s := by
  rcases reads_of_shape h.shape with ⟨b, t, heq, hread⟩
  have hbody : Reader.commentBody.scan (0x2A :: 0x2F :: (l.raw ++ s)) =
      ⟨[], [], 0x2A :: 0x2F :: (l.raw ++ s)⟩ := Reader.commentBody.scan_none rfl
  have hcomment : Reader.comment.read ([0x2F, 0x2A, 0x2A, 0x2F] ++ (l.raw ++ s)) =
      some (⟨[0x2F, 0x2A, 0x2A, 0x2F], []⟩, l.raw ++ s) := by
    simp [Reader.comment, hbody]
  have hgap : Reader.comment.scan ([0x2F, 0x2A, 0x2A, 0x2F] ++ (l.raw ++ s)) =
      ⟨[], [0x2F, 0x2A, 0x2A, 0x2F], b :: t⟩ := by
    rw [Reader.comment.scan_some hcomment, Reader.comment.scan_none h.comment, heq]
    rfl
  rw [streamFrom_cons offset (by rw [hgap]), hgap, hread]
  rfl

/-- A token that is written: it has a shape, and leaves text of its own. -/
structure Written (t : Token) : Prop where
  shape : ∃ s, Shape t.lexeme s
  space : t.kind ≠ .whitespace
  slash : t.isDelim 0x5C = false

theorem Written.raw_ne_slash {t : Token} (h : t.Written) (hkind : t.kind = .delim) :
    t.raw ≠ [0x5C] := by
  rcases h.shape with ⟨s, hshape⟩
  have hraw : t.raw = t.value := raw_of_delim hshape hkind
  have hslash := h.slash
  rw [hraw]
  simpa [isDelim, hkind] using hslash

theorem stands_of_isOpen {t : Token} {m : Lexeme} {s : Bytes} (hm : t.Becomes m)
    (hshape : Shape t.lexeme s) (hopen : t.isOpen = true) (w : Bytes) : Stands m w := by
  apply stands_of_shape (hm.alone hopen w)
  intro hraw
  have hhead : t.raw.head? = some 0x2F := by
    rw [← head?_closedText hshape, ← hm.raw, hraw]
    rfl
  have hdelim := congrArg Lexeme.kind (eq_of_isSingle rfl hshape hhead)
  have hkind : t.kind = .delim := hdelim
  simp [isOpen, isOpenString, isOpenAddress, hkind] at hopen

theorem stands_of_spares {t : Token} {w : Bytes} (h : t.Written)
    (hspares : ∀ s, Shape t.lexeme s -> ∃ s', Shape t.lexeme s' ∧ t.lexeme.Spares w s')
    (hsolidus : t.raw = [0x2F] -> w.head? ≠ some 0x2A) :
    ∃ m, t.Becomes m ∧ Stands m w := by
  rcases h.shape with ⟨s, hshape⟩
  rcases becomes_of_shape hshape with ⟨m, hm⟩
  by_cases hopen : t.isOpen = true
  · exact ⟨m, hm, stands_of_isOpen hm hshape hopen w⟩
  · have hsame : m = t.lexeme := hm.same (by simpa using hopen)
    rcases hspares s hshape with ⟨s', hshape', hw⟩
    have hclosed := hm.closed
    refine ⟨m, hm, ?_⟩
    rw [hsame] at hclosed ⊢
    exact stands_of_shape (hshape'.again hclosed hw) hsolidus

theorem stands_before_blunt {t : Token} {w : Bytes} (h : t.Written) (hblunt : Blunt w)
    (hspace : ∀ b ∈ w.head?, Byte.isSpace b = false)
    (hargument : t.kind = .function -> opensAddress t.value w = false) :
    ∃ m, t.Becomes m ∧ Stands m w := by
  apply stands_of_spares h
  · intro s hshape
    refine ⟨s, hshape, spares_of_blunt hshape hblunt h.space h.raw_ne_slash hargument ?_⟩
    intro _
    right
    apply sparing_of_front
    intro b hb
    exact ⟨(bluntByte_of_isBlunt (hblunt.front b hb)).name, hspace b hb⟩
  · intro _ hhead
    exact (bluntByte_of_isBlunt (hblunt.front 0x2A hhead)).asterisk rfl

theorem stands_before_space {t : Token} {w : Bytes} (h : t.Written)
    (htakes : t.takesSpace = false)
    (hargument : t.kind = .function -> opensAddress t.value (0x20 :: w) = false) :
    ∃ m, t.Becomes m ∧ Stands m (0x20 :: w) := by
  have hblunt : Blunt (0x20 :: w) := .cons (by decide) (by decide) w
  apply stands_of_spares h
  · intro s hshape
    by_cases hminds : t.lexeme.MindsEscape
    · have hbefore := shape_before_space hshape hminds fun _ => htakes
      refine ⟨[0x20], hbefore, spares_of_blunt hbefore hblunt h.space h.raw_ne_slash hargument ?_⟩
      intro _
      exact Or.inl rfl
    · refine ⟨s, hshape, spares_of_blunt hshape hblunt h.space h.raw_ne_slash hargument ?_⟩
      intro hyes
      exact absurd hyes hminds
  · intro _ hhead
    cases hhead

theorem stands_before_token {t u : Token} {m : Lexeme} {v : Bytes} (h : t.Written)
    (hu : u.Written) (hm : u.Becomes m) (hright : Shape m v)
    (hsep : needsSeparator t u = false) (hfuse : t.fuses u = false)
    (hargument : t.kind = .function -> opensAddress t.value (m.raw ++ v) = false) :
    ∃ m', t.Becomes m' ∧ Stands m' (m.raw ++ v) := by
  rcases hu.shape with ⟨su, hshapeu⟩
  have hhead : m.raw.head? = u.raw.head? := by
    rw [hm.raw]
    exact head?_closedText hshapeu
  have hspace : m.kind ≠ .whitespace := ne_space_of_becomes hm hu.space
  apply stands_of_spares h
  · intro s hshape
    exact ⟨s, hshape, spares_of_neighbour hshape hm hright hhead hsep hfuse h.space hspace
      h.raw_ne_slash hargument⟩
  · intro hraw hstar
    rcases List.exists_cons_of_ne_nil (raw_ne_nil hright) with ⟨b, x, hx⟩
    rw [hx] at hstar hhead
    obtain rfl : b = 0x2A := by simpa using hstar
    rcases List.head?_eq_some_iff.mp hhead.symm with ⟨y, hy⟩
    rcases h.shape with ⟨s, hshape⟩
    have hdelim : t.lexeme = delim 0x2F :=
      eq_of_isSingle rfl hshape (by simp [lexeme, hraw])
    have hkind : t.kind = .delim := congrArg Lexeme.kind hdelim
    have hvalue : t.value = [0x2F] := congrArg Lexeme.value hdelim
    rw [needsSeparator_eq (raw_ne_nil hshape) hy, hkind, hvalue] at hsep
    cases hsep

/-!
## The whole run

The run is read from its end: what a token needs behind it is known of the text that is already
there. So both parts are proved together, that the tokens of the text answer to the run, and that
the last token before it stands in front of the text.
-/

theorem joint_cases (place : Place) (left : Token) (space : Bool) (t : Token) :
    (joint place left space t = [] ∧ needsSeparator left t = false) ∨
      joint place left space t = [0x20] ∨
      (joint place left space t = [0x2F, 0x2A, 0x2A, 0x2F] ∧ needsSeparator left t = true) := by
  unfold joint
  split
  · exact Or.inr (Or.inl rfl)
  · split
    · rename_i hsep
      split
      · exact Or.inr (Or.inr ⟨by decide, hsep⟩)
      · exact Or.inr (Or.inl rfl)
    · rename_i hsep
      exact Or.inl ⟨rfl, by simpa using hsep⟩

theorem jointAfter_cases (place : Place) (last : Option Token) (space : Bool) (t : Token) :
    jointAfter place last space t = [] ∨ jointAfter place last space t = [0x20] ∨
      jointAfter place last space t = [0x2F, 0x2A, 0x2A, 0x2F] := by
  cases last with
  | none => exact Or.inl rfl
  | some left =>
      rcases joint_cases place left space t with ⟨hj, _⟩ | hj | ⟨hj, _⟩
      · exact Or.inl hj
      · exact Or.inr (Or.inl hj)
      · exact Or.inr (Or.inr hj)

theorem raw_of_isQuoted {t : Token} {s : Bytes} (hshape : Shape t.lexeme s) (h : t.isQuoted) :
    ∃ q x, t.raw = q :: x ∧ Byte.isQuote q = true := by
  rcases t with ⟨kind, value, raw, offset, afterComment, unterminated⟩
  simp only [lexeme] at hshape
  cases hshape with
  | string hquote hscan => exact ⟨_, _, rfl, hquote⟩
  | openString hquote hscan => exact ⟨_, _, rfl, hquote⟩
  | badString hquote hscan => exact ⟨_, _, rfl, hquote⟩
  | punctuation hmark =>
      rcases h with hkind | hkind <;> exact absurd hkind (ne_of_punctuation hmark rfl)
  | _ => rcases h with hkind | hkind <;> cases hkind

theorem startsWithQuote_of_isQuoted {t : Token} {m : Lexeme} {s : Bytes}
    (hshape : Shape t.lexeme s) (hm : t.Becomes m) (h : t.isQuoted) (v : Bytes) :
    startsWithQuote (m.raw ++ v) = true := by
  have hhead := head?_closedText hshape
  rw [← hm.raw] at hhead
  rcases raw_of_isQuoted hshape h with ⟨q, x, hraw, hq⟩
  rw [hraw] at hhead
  rcases List.head?_eq_some_iff.mp hhead with ⟨y, hy⟩
  rw [hy]
  exact hq

theorem opensAddress_of_quote {name w : Bytes}
    (h : startsWithQuote (w.dropWhile Byte.isSpace) = true) : opensAddress name w = false := by
  simp [opensAddress, h]

theorem startsWithQuote_dropWhile {w : Bytes} (h : startsWithQuote w = true) :
    startsWithQuote (w.dropWhile Byte.isSpace) = true := by
  cases w with
  | nil => cases h
  | cons b w =>
      have hb : Byte.isSpace b = false := by
        rcases Byte.isQuote_cases h with rfl | rfl <;> decide
      rw [List.dropWhile_cons, hb]
      exact h

def HasArgument (t : Token) (ts : List Token) : Prop :=
  t.kind = .function -> sameWord t.value (ascii "url") = true ->
    ∃ u, firstVisible ts = some u ∧ u.isQuoted

theorem HasArgument.opens {t : Token} {ts : List Token} {w : Bytes} (h : HasArgument t ts)
    (hw : ∀ u, firstVisible ts = some u -> u.isQuoted ->
      startsWithQuote (w.dropWhile Byte.isSpace) = true)
    (hkind : t.kind = .function) : opensAddress t.value w = false := by
  by_cases hurl : sameWord t.value (ascii "url") = true
  · rcases h hkind hurl with ⟨u, hu, hquoted⟩
    exact opensAddress_of_quote (hw u hu hquoted)
  · simp [opensAddress, hurl]

theorem stands_before_next {place : Place} {space : Bool} {left t : Token} {ts : List Token}
    {m : Lexeme} {v : Bytes} (hleft : left.Written) (ht : t.Written) (hm : t.Becomes m)
    (hstands : Stands m v) (hargument : HasArgument left (t :: ts))
    (hclash : clashes place left space t = false) :
    ∃ m', left.Becomes m' ∧ Stands m' (joint place left space t ++ (m.raw ++ v)) := by
  have hvisible : firstVisible (t :: ts) = some t := by
    simp [firstVisible, ht.space]
  have hquote : ∀ u, firstVisible (t :: ts) = some u -> u.isQuoted ->
      startsWithQuote (m.raw ++ v) = true := by
    intro u hu hquoted
    rw [hvisible] at hu
    cases hu
    rcases ht.shape with ⟨s, hshape⟩
    exact startsWithQuote_of_isQuoted hshape hm hquoted v
  unfold clashes at hclash
  rcases joint_cases place left space t with ⟨hjoint, hsep⟩ | hjoint | ⟨hjoint, hsep⟩
  · rw [if_pos hjoint] at hclash
    rw [hjoint, List.nil_append]
    apply stands_before_token hleft ht hm hstands.shape hsep hclash
    apply hargument.opens
    intro u hu hquoted
    exact startsWithQuote_dropWhile (hquote u hu hquoted)
  · rw [hjoint] at hclash ⊢
    have htakes : left.takesSpace = false := by simpa using hclash
    apply stands_before_space hleft htakes
    apply hargument.opens
    intro u hu hquoted
    have hfound := startsWithQuote_dropWhile (hquote u hu hquoted)
    exact hfound
  · rw [hjoint]
    apply stands_before_blunt hleft
    · exact .cons (by decide) (by decide) _
    · intro b hb
      obtain rfl : 0x2F = b := by simpa using hb
      decide
    · intro hkind
      rcases hleft.shape with ⟨s, hshape⟩
      rcases ht.shape with ⟨s', hshape'⟩
      rcases List.exists_cons_of_ne_nil (raw_ne_nil hshape') with ⟨b, x, hx⟩
      rw [needsSeparator_eq (raw_ne_nil hshape) hx, hkind] at hsep
      cases hsep

theorem stands_space {s : Bytes} (h : ∀ b ∈ s.head?, Byte.isSpace b = false) :
    Stands ⟨.whitespace, [0x20], [0x20], false⟩ s :=
  stands_of_shape (.whitespace (List.cons_ne_nil _ _) rfl h) nofun

theorem stands_space_before {m : Lexeme} {v : Bytes} (h : Shape m v) (hspace : m.kind ≠ .whitespace)
    (w : Bytes) : Stands ⟨.whitespace, [0x20], [0x20], false⟩ (m.raw ++ w) := by
  apply stands_space
  intro b hb
  rw [Bool.eq_false_iff]
  intro hsp
  rcases List.exists_cons_of_ne_nil (raw_ne_nil h) with ⟨c, x, hx⟩
  rw [hx] at hb
  obtain rfl : c = b := by simpa using hb
  exact hspace (shape_of_isSpace h (by rw [hx]; rfl) hsp)

theorem read_joint {joint : Bytes} {m : Lexeme} {v : Bytes} (offset : Nat) (h : Stands m v)
    (hspace : m.kind ≠ .whitespace)
    (hjoint : joint = [] ∨ joint = [0x20] ∨ joint = [0x2F, 0x2A, 0x2A, 0x2F]) :
    ∃ gap u offset', streamFrom offset (joint ++ (m.raw ++ v)) =
      gap ++ u :: streamFrom offset' v ∧ Between u joint gap ∧ u.lexeme = m := by
  rcases hjoint with rfl | rfl | rfl
  · exact ⟨[], _, _, streamFrom_of_stands offset h, .nothing, rfl⟩
  · have hgap := stands_space_before h.shape hspace v
    refine ⟨[ofLexeme ⟨.whitespace, [0x20], [0x20], false⟩ offset false],
      ofLexeme m (offset + 1) false, offset + 1 + m.raw.length, ?_, .space rfl, rfl⟩
    have hfirst := streamFrom_of_stands offset hgap
    rw [streamFrom_of_stands _ h] at hfirst
    exact hfirst
  · exact ⟨[], _, _, streamFrom_of_comment offset h, .comment rfl, rfl⟩

theorem Written.of_lexed {t : Token} {ts : List Token} (h : Lexed (t :: ts))
    (hspace : t.kind ≠ .whitespace) (hslash : t.isDelim 0x5C = false) :
    t.Written ∧ HasArgument t ts ∧ t.isSilent = false := by
  cases h with
  | cons hshape hnext hlast hargument htail =>
      refine ⟨⟨hshape, hspace, hslash⟩, hargument, ?_⟩
      rcases hshape with ⟨s, hshape⟩
      have hkind : t.kind ≠ .endOfText := kind_ne_endOfText hshape
      simp [isSilent, hkind, hslash]

theorem not_isQuoted_of_slash {t : Token} (h : t.isDelim 0x5C = true) : ¬t.isQuoted := by
  simp only [isDelim, Bool.and_eq_true, beq_iff_eq] at h
  intro hquoted
  rcases hquoted with hquoted | hquoted <;>
  · rw [h.1] at hquoted
    cases hquoted

theorem HasArgument.behind_space {left t : Token} {ts : List Token}
    (h : HasArgument left (t :: ts)) (hspace : t.kind = .whitespace) : HasArgument left ts := by
  intro hkind hurl
  rcases h hkind hurl with ⟨u, hu, hquoted⟩
  refine ⟨u, ?_, hquoted⟩
  simpa [firstVisible, hspace] using hu

theorem HasArgument.behind_slash {left t : Token} {ts : List Token}
    (h : HasArgument left (t :: ts)) (hslash : t.isDelim 0x5C = true) : HasArgument left ts := by
  intro hkind hurl
  rcases h hkind hurl with ⟨u, hu, hquoted⟩
  have hspace : t.kind ≠ .whitespace := by
    intro hspace
    simp [isDelim, hspace] at hslash
  obtain rfl : t = u := by simpa [firstVisible, hspace] using hu
  exact absurd hquoted (not_isQuoted_of_slash hslash)

theorem writeAfter_space {place : Place} {last : Option Token} {space : Bool} {t : Token}
    (ts : List Token) (h : t.kind = .whitespace) :
    writeAfter place last space (t :: ts) = writeAfter place last true ts := by
  have hsilent : t.isSilent = false := by simp [isSilent, isDelim, h]
  simp [writeAfter, hsilent, h]

theorem writeAfter_token {place : Place} {last : Option Token} {space : Bool} {t : Token}
    (ts : List Token) (hspace : t.kind ≠ .whitespace) (hsilent : t.isSilent = false) :
    writeAfter place last space (t :: ts) =
      jointAfter place last space t ++ (t.closedText ++ writeAfter place (some t) false ts) := by
  cases last <;> simp [writeAfter, hsilent, hspace, jointAfter]

theorem writeAfter_slash {place : Place} {last : Option Token} {space : Bool} {t : Token}
    (ts : List Token) (h : t.isDelim 0x5C = true) :
    writeAfter place last space (t :: ts) = writeAfter place last space ts := by
  simp [writeAfter, isSilent, h]

theorem read_writeAfter {place : Place} {ts : List Token} {tail : Bytes} (htail : Blunt tail)
    (hspace : ∀ b ∈ tail.head?, Byte.isSpace b = false) {last : Option Token} {space : Bool}
    (h : Lexed ts) (hsep : separable place last space ts = true) :
    (∀ offset, ∃ us offset',
      streamFrom offset (writeAfter place last space ts ++ tail) =
          us ++ streamFrom offset' tail ∧ Echoes place last space ts us) ∧
      (∀ left, last = some left -> left.Written -> HasArgument left ts ->
        ∃ m, left.Becomes m ∧ Stands m (writeAfter place last space ts ++ tail)) := by
  induction ts generalizing last space with
  | nil =>
      constructor
      · intro offset
        exact ⟨[], offset, rfl, .nil⟩
      · intro left _ hleft hargument
        apply stands_before_blunt hleft htail hspace
        apply hargument.opens
        intro u hu
        cases hu
  | cons t ts ih =>
      have hlexed : Lexed ts := h.tail
      rw [separable] at hsep
      split at hsep
      · rename_i hgap
        rcases ih hlexed hsep with ⟨hread, hleft⟩
        rw [writeAfter_space ts hgap]
        constructor
        · intro offset
          rcases hread offset with ⟨us, offset', heq, hechoes⟩
          exact ⟨us, offset', heq, .space hgap hechoes⟩
        · intro left hlast hwritten hargument
          exact hleft left hlast hwritten (hargument.behind_space hgap)
      · rename_i hgap
        split at hsep
        · rename_i hslash
          rcases ih hlexed hsep with ⟨hread, hleft⟩
          rw [writeAfter_slash ts hslash]
          constructor
          · intro offset
            rcases hread offset with ⟨us, offset', heq, hechoes⟩
            exact ⟨us, offset', heq, .slash hslash hechoes⟩
          · intro left hlast hwritten hargument
            exact hleft left hlast hwritten (hargument.behind_slash hslash)
        rename_i hplain
        rw [Bool.and_eq_true] at hsep
        rcases hsep with ⟨hclash, hsep⟩
        have hslash : t.isDelim 0x5C = false := Bool.eq_false_iff.mpr hplain
        rcases Written.of_lexed h hgap hslash with ⟨ht, hargument, hsilent⟩
        rcases ih hlexed hsep with ⟨hread, hstands⟩
        rcases hstands t rfl ht hargument with ⟨m, hm, hm'⟩
        have hkind : m.kind ≠ .whitespace := ne_space_of_becomes hm hgap
        have hwrite : writeAfter place last space (t :: ts) ++ tail =
            jointAfter place last space t ++
              (m.raw ++ (writeAfter place (some t) false ts ++ tail)) := by
          rw [writeAfter_token ts hgap hsilent, hm.raw, List.append_assoc, List.append_assoc]
        rw [hwrite]
        constructor
        · intro offset
          rcases read_joint offset hm' hkind (jointAfter_cases place last space t) with
            ⟨gap, u, next, heq, hbetween, hu⟩
          rcases hread next with ⟨us, offset', hrest, hechoes⟩
          refine ⟨gap ++ u :: us, offset', ?_, ?_⟩
          · rw [heq, hrest]
            simp
          · rw [← hu] at hm
            refine .token hgap hsilent hbetween hm ?_ hechoes
            rcases ht.shape with ⟨s, hshape⟩
            rw [show u.raw = t.closedText from hm.raw]
            exact head?_closedText hshape
        · intro left hlast hwritten hargument'
          subst hlast
          have hno : clashes place left space t = false := by simpa using hclash
          exact stands_before_next hwritten ht hm hm' hargument' hno

end Token
end StyleTrim
