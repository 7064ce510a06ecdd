import StyleTrim.Proofs.Selector.Compact
import StyleTrim.Proofs.Sheet.Groups

/-!
# Selectors in a scope rule

The prelude of a scope rule holds selectors in parentheses. It is written like the prelude of every
at-rule, so white space goes around its colons. The selectors between the parentheses are read
again, but where white space stood for a combinator in front of a pseudo-class, the combinator is
lost.
-/

namespace StyleTrim
namespace Sheet

open Token Grammar

variable {s : Bytes} {ts : List Token} {last : Option Token} {space : Bool}

/-!
## The tokens of the rule
-/

/-- A scope rule with the text in the parentheses of its prelude, and nothing in its block. -/
def scopeText (s : Bytes) : Bytes :=
  ascii "@scope (" ++ (s ++ ascii ")\x7b\x7d")

def scopeAt (offset : Nat) : Token :=
  ofLexeme ⟨.atKeyword, ascii "scope", 0x40 :: ascii "scope", false⟩ offset false

def openAt (offset : Nat) : Token :=
  ofLexeme (.verbatim .leftParen [0x28]) offset false

def closeAt (offset : Nat) : Token :=
  ofLexeme (.verbatim .rightParen [0x29]) offset false

def endBraceAt (offset : Nat) : Token :=
  ofLexeme (.verbatim .rightBrace [0x7D]) offset false

def innerTokens (s : Bytes) : List Token :=
  Token.body (streamFrom 8 s)

def scopePrelude (s : Bytes) : List Token :=
  spaceAt 6 :: openAt 7 :: (innerTokens s ++ [closeAt (8 + s.length)])

def scopeTokens (s : Bytes) : List Token :=
  scopeAt 0 :: (scopePrelude s ++
    braceAt (8 + s.length + 1) :: [endBraceAt (8 + s.length + 2)])

/-- No brace and no semicolon stands in the text, and no comment. -/
def IsUnbroken (s : Bytes) : Prop :=
  ∀ t ∈ tokenize s, t.kind ≠ .leftBrace ∧ t.kind ≠ .rightBrace ∧ t.kind ≠ .semicolon ∧
    t.afterComment = false

theorem IsUnbroken.noComment (h : IsUnbroken s) (offset : Nat) : NoComment (streamFrom offset s) :=
  forall_mem_streamFrom offset (fun _ h => h) fun t ht => (h t ht).2.2.2

theorem mem_of_mem_body {t : Token} (h : t ∈ Token.body ts) : t ∈ ts :=
  List.takeWhile_subset _ h

theorem tokenize_scope (h : IsUnbroken s) (hslash : NoSlash (Token.body (tokenize s)))
    (hclosed : ∀ t ∈ Token.body (tokenize s), t.lexeme.IsClosed) :
    tokenize (scopeText s) = scopeTokens s ++ [endAt (8 + s.length + 3) false] := by
  have hscope : ∀ y, streamFrom 0 (0x40 :: ascii "scope" ++ 0x20 :: y) =
      scopeAt 0 :: streamFrom 6 (0x20 :: y) := by
    intro y
    have hstands : Lexeme.Stands ⟨.atKeyword, ascii "scope", 0x40 :: ascii "scope", false⟩
        (0x20 :: y) := by
      apply stands_keyword (by decide) (by decide)
      rintro b ⟨⟩
      decide
    exact streamFrom_of_stands 0 hstands
  have hspace : ∀ y,
      streamFrom 6 (0x20 :: 0x28 :: y) = spaceAt 6 :: openAt 7 :: streamFrom 8 y := by
    intro y
    have hstands : Lexeme.Stands ⟨.whitespace, [0x20], [0x20], false⟩ (0x28 :: y) := by
      apply stands_space
      rintro b ⟨⟩
      decide
    have hread := streamFrom_of_stands 6 hstands
    rw [streamFrom_punctuation _ _ rfl] at hread
    exact hread
  have henclosed : streamFrom 8 (s ++ 0x29 :: [0x7B, 0x7D]) =
      innerTokens s ++ streamFrom (8 + s.length) (0x29 :: [0x7B, 0x7D]) :=
    streamFrom_enclosed (laid_streamFrom 8 s) (h.noComment 8)
      (forall_mem_body 8 (fun _ h => h) hslash) (forall_mem_body 8 (fun _ h => h) hclosed) _
  have hend : streamFrom (8 + s.length) (0x29 :: [0x7B, 0x7D]) =
      closeAt (8 + s.length) :: braceAt (8 + s.length + 1) ::
        endBraceAt (8 + s.length + 2) :: [endAt (8 + s.length + 3) false] := by
    rw [streamFrom_punctuation _ _ rfl, streamFrom_punctuation _ _ rfl,
      streamFrom_punctuation _ _ rfl, streamFrom_end]
    rfl
  have hsplit : scopeText s =
      0x40 :: ascii "scope" ++ 0x20 :: 0x28 :: (s ++ 0x29 :: [0x7B, 0x7D]) := rfl
  rw [tokenize, hsplit, hscope, hspace, henclosed, hend, scopeTokens, scopePrelude]
  simp

theorem body_scope (h : IsUnbroken s) (hslash : NoSlash (Token.body (tokenize s)))
    (hclosed : ∀ t ∈ Token.body (tokenize s), t.lexeme.IsClosed) :
    Token.body (tokenize (scopeText s)) = scopeTokens s := by
  have hinner : ∀ t ∈ scopeTokens s, t.kind ≠ .endOfText := by
    have hprelude : ∀ t ∈ scopePrelude s, t.kind ≠ .endOfText := by
      simp only [scopePrelude, List.forall_mem_cons, List.forall_mem_append]
      exact ⟨by decide, by decide, fun t ht => kind_of_mem_body ht, by rintro ⟨⟩, nofun⟩
    simp only [scopeTokens, List.forall_mem_cons, List.forall_mem_append]
    exact ⟨by decide, hprelude, by rintro ⟨⟩, by rintro ⟨⟩, nofun⟩
  rw [tokenize_scope h hslash hclosed, body_append hinner]
  exact List.append_nil _

/-!
## The written prelude
-/

theorem closes_closeAt (offset : Nat) : Closes 0x29 (closeAt offset) :=
  ⟨Or.inl rfl, .rightParen, rfl, rfl⟩

theorem writeAfter_closeAt (offset : Nat) :
    writeAfter .prelude last space (ts ++ [closeAt offset]) =
      writeAfter .prelude last space ts ++ [0x29] := by
  induction ts generalizing last space with
  | nil =>
      have hjoint : jointAfter .prelude last space (closeAt offset) = [] := by
        cases last with
        | none => rfl
        | some left =>
            have hsep := (closes_closeAt offset).needsSeparator left
            have hdrops : dropsSpace .prelude left (closeAt offset) = true := by
              simp [dropsSpace, closeAt, ofLexeme, Lexeme.verbatim]
            simp [jointAfter, joint, hsep, hdrops]
      rw [List.nil_append, writeAfter_token _ (by rintro ⟨⟩) rfl, hjoint]
      rfl
  | cons t ts ih =>
      simp only [List.cons_append, writeAfter]
      split
      · exact ih
      · split
        · exact ih
        · rw [ih]
          simp

theorem write_scopePrelude
    (hmatch : (Token.body (tokenize s)).foldl owedAfter [0x29] = [0x29]) :
    Token.write .prelude (scopePrelude s) =
      0x28 :: (writeAfter .prelude (some (openAt 7)) false (innerTokens s) ++ [0x29]) := by
  have howed : owed (scopePrelude s) = [] := by
    have hinner : (innerTokens s).foldl owedAfter [0x29] = [0x29] := by
      rw [innerTokens, streamFrom_eq_map, body_map, List.foldl_map]
      exact hmatch
    have hfront : owedAfter (owedAfter [] (spaceAt 6)) (openAt 7) = [0x29] := rfl
    rw [owed, scopePrelude, List.foldl_cons, List.foldl_cons, hfront, List.foldl_append, hinner]
    exact (closes_closeAt (8 + s.length)).owedAfter []
  rw [Token.write, howed, List.append_nil, scopePrelude, writeAfter_space _ rfl,
    writeAfter_token _ (by decide) rfl, writeAfter_closeAt]
  rfl

/-!
## Reading the rule
-/

theorem run_scope (h : IsUnbroken s) :
    run {} ⟨.rules true, [], []⟩ (scopeTokens s) =
      .ok ⟨.rules true,
        [⟨.atRule (ascii "scope") (Token.write .prelude (scopePrelude s)) true, []⟩], []⟩ := by
  have hinner : ∀ t ∈ innerTokens s, ∀ d, endsPrelude true d t = false := by
    have hplain : ∀ t ∈ Token.body (tokenize s), ∀ d, endsPrelude true d t = false := by
      intro t ht d
      simp [endsPrelude, h t (mem_of_mem_body ht)]
    exact forall_mem_body 8 (fun _ h => h) hplain
  have hgoes : ∀ t ∈ scopePrelude s, ∀ d, endsPrelude true d t = false := by
    simp only [scopePrelude, List.forall_mem_cons, List.forall_mem_append]
    refine ⟨fun d => ?_, fun d => ?_, hinner, fun d => ?_, List.forall_mem_nil _⟩
    · simp [endsPrelude, spaceAt, ofLexeme]
    · simp [endsPrelude, openAt, ofLexeme, Lexeme.verbatim]
    · simp [endsPrelude, closeAt, ofLexeme, Lexeme.verbatim]
  -- The brace ends the prelude however deep the reader thinks it stands in brackets.
  have hends : ∀ d, endsPrelude true d (braceAt (8 + s.length + 1)) = true := fun _ => rfl
  have hsplit := splitPrelude_of_ends hgoes hends [endBraceAt (8 + s.length + 2)] 0
  rw [scopeTokens, run_enterAtRule_of_split rfl hsplit rfl (by decide), State.inside,
    run_close rfl, run_nil]
  rfl

theorem parse_scope (h : IsUnbroken s) (hslash : NoSlash (Token.body (tokenize s)))
    (hclosed : ∀ t ∈ Token.body (tokenize s), t.lexeme.IsClosed)
    (hgood : (Token.body (tokenize s)).any Token.isBad = false) :
    parse {} (scopeText s) =
      .ok [⟨.atRule (ascii "scope") (Token.write .prelude (scopePrelude s)) true, []⟩] := by
  have hinner : (innerTokens s).any Token.isBad = false := by
    rw [innerTokens, streamFrom_eq_map, body_map, List.any_map]
    exact hgood
  have hbad : (tokenize (scopeText s)).any Token.isBad = false := by
    rw [tokenize_scope h hslash hclosed]
    simp only [scopeTokens, scopePrelude, List.any_cons, List.cons_append, List.any_append, hinner]
    rfl
  rw [parse, ofTokens_eq_build fun _ => hbad, build, body_scope h hslash hclosed]
  have hrun : run {} ⟨.rules ({} : Options).isStrict, [], []⟩ _ = _ := run_scope h
  rw [hrun]
  rfl

/-!
## The selectors in the prelude
-/

/-- A selector list without braces, semicolons and comments, in the parentheses of a scope rule.
Where no backslash stands alone and every bracket is closed, the prelude is read as a rule with an
empty block, and what stands in its parentheses is a selector list again. These are the selectors
that `glue` makes, so they are those of the text exactly where no white space stands for a
combinator in front of a pseudo-class. -/
theorem scope_selectors_glued {list : SelectorList} (h : SelectorList.ofText s = .ok list)
    (hplain : IsUnbroken s) (hslash : NoSlash (Token.body (tokenize s)))
    (hmatch : (Token.body (tokenize s)).foldl owedAfter [0x29] = [0x29]) :
    ∃ written list',
      parse {} (scopeText s) =
          .ok [⟨.atRule (ascii "scope") (0x28 :: (written ++ [0x29])) true, []⟩] ∧
        SelectorList.ofText written = .ok list' ∧ list'.squeeze = (glue list).squeeze ∧
        (list'.squeeze = list.squeeze ↔ ∀ c ∈ list, joinsPseudo c = false) := by
  rcases ofText_iff.mp h with ⟨hgood, hspelled⟩
  have hclosed := closed_of_spelled hspelled (lexed_tokenize s) hgood
  have hcomment : NoComment (Token.body (tokenize s)) :=
    fun t ht => (hplain t (mem_of_mem_body ht)).2.2.2
  have hparse := parse_scope hplain hslash hclosed hgood
  rw [write_scopePrelude hmatch] at hparse
  have hparen : (openAt 7).lexeme = .verbatim .leftParen [0x28] := rfl
  rcases ofText_compact h hcomment hslash hparen 8 with ⟨list', hread, hsame⟩
  refine ⟨_, list', hparse, hread, hsame, ?_⟩
  rw [hsame]
  exact squeeze_glue list

def hoverList : SelectorList :=
  [⟨[.element (ascii "a")], [(.descendant, [.pseudoClass (ascii "hover") []])]⟩]

theorem scope_selectors_glued_before_hover :
    SelectorList.ofText (ascii "a :hover") = .ok hoverList ∧
      ∃ written list',
        parse {} (scopeText (ascii "a :hover")) =
            .ok [⟨.atRule (ascii "scope") (0x28 :: (written ++ [0x29])) true, []⟩] ∧
          SelectorList.ofText written = .ok list' ∧ list'.squeeze ≠ hoverList.squeeze := by
  have hread : SelectorList.ofText (ascii "a :hover") = .ok hoverList :=
    eq_ok_of_toOption (by decide +kernel)
  have hplain : IsUnbroken (ascii "a :hover") := by
    unfold IsUnbroken
    decide +kernel
  have hslash : NoSlash (Token.body (tokenize (ascii "a :hover"))) := by
    unfold NoSlash
    decide +kernel
  rcases scope_selectors_glued hread hplain hslash (by decide +kernel) with
    ⟨written, list', hparse, hwritten, _, hsame⟩
  refine ⟨hread, written, list', hparse, hwritten, fun heq => ?_⟩
  have hjoins : ∀ c ∈ hoverList, joinsPseudo c = false := hsame.mp heq
  exact absurd hjoins (by decide)

end Sheet
end StyleTrim
