import StyleTrim.Proofs.Sheet.Blocks
import StyleTrim.Proofs.Sheet.Shapes

/-!
# Groups inside of rules

The name of an at-rule alone says what its block holds: a media rule holds rules, also where it
stands in a style rule. There its block may well hold declarations, which are lost. What holds only
rules is kept as it is, up to the limit on nesting.
-/

namespace StyleTrim
namespace Sheet

open Token

/-!
## Texts in which only rules begin
-/

/-- Whenever something begins in the text, read as a list of declarations, outside of all its
blocks, it is an at-rule or a rule. -/
def holdsOnlyRules (d : Bytes) : Bool :=
  (outerMoments { mode := .lenient } ⟨.declarations, [], []⟩ (Token.body (tokenize d))).all
    beginsRule

/-- No brace and no at-rule stands in the text. -/
def holdsNoBlocks (d : Bytes) : Bool :=
  (Token.body (tokenize d)).all fun t =>
    t.kind != .leftBrace && t.kind != .rightBrace && t.kind != .atKeyword

/-!
## The group
-/

/-- The text in the block of a media rule, which stands in a style rule. -/
def nestedGroup (q d : Bytes) : Bytes :=
  ascii ".a\x7b@media " ++ (q ++ 0x7B :: (d ++ [0x7D, 0x7D]))

def markAt (offset : Nat) : Token :=
  ofLexeme (.delim 0x2E) offset false

def mediaAt (offset : Nat) : Token :=
  ofLexeme ⟨.atKeyword, ascii "media", 0x40 :: ascii "media", false⟩ offset false

def spaceAt (offset : Nat) : Token :=
  ofLexeme ⟨.whitespace, [0x20], [0x20], false⟩ offset false

def outerPrelude : List Token :=
  [markAt 0, wordAt 1 (ascii "a")]

def mediaPrelude (q : Bytes) : List Token :=
  [spaceAt 9, wordAt 10 q]

theorem isSpace_of_isAlpha {b : UInt8} (h : Byte.isAlpha b = true) : Byte.isSpace b = false := by
  apply Byte.isSpace_of_isName
  simp [Byte.isName, Byte.isNameStart, h]

theorem tokenize_group {q : Bytes} (hne : q ≠ []) (hletters : q.all Byte.isAlpha = true)
    (d : Bytes) :
    tokenize (nestedGroup q d) =
      outerPrelude ++ braceAt 2 :: mediaAt 3 :: (mediaPrelude q ++ braceAt (10 + q.length) ::
        (tokenize (d ++ [0x7D, 0x7D])).map (moved (10 + q.length + 1))) := by
  have hmark : ∀ s, streamFrom 0 (0x2E :: 0x61 :: s) = markAt 0 :: streamFrom 1 (0x61 :: s) := by
    intro s
    have hlone : Lexeme.Lone 0x2E (0x61 :: s) :=
      ⟨by decide, by decide, rfl, rfl, rfl, nofun, nofun, nofun⟩
    exact streamFrom_of_stands 0 (stands_delim hlone (by decide))
  have hname : ∀ s, streamFrom 1 (0x61 :: 0x7B :: s) =
      wordAt 1 (ascii "a") :: braceAt 2 :: streamFrom 3 s :=
    @streamFrom_word (ascii "a") (by decide) (by decide) 1
  have hmedia : ∀ s, streamFrom 3 (0x40 :: ascii "media" ++ 0x20 :: s) =
      mediaAt 3 :: streamFrom 9 (0x20 :: s) := by
    intro s
    have hstands : Lexeme.Stands ⟨.atKeyword, ascii "media", 0x40 :: ascii "media", false⟩
        (0x20 :: s) := by
      apply stands_keyword (by decide) (by decide)
      rintro b ⟨⟩
      decide
    exact streamFrom_of_stands 3 hstands
  have hspace : ∀ s, streamFrom 9 (0x20 :: (q ++ s)) = spaceAt 9 :: streamFrom 10 (q ++ s) := by
    intro s
    have hstands : Lexeme.Stands ⟨.whitespace, [0x20], [0x20], false⟩ (q ++ s) := by
      apply stands_space
      cases q with
      | nil => exact absurd rfl hne
      | cons b q =>
          rintro c ⟨⟩
          rw [List.all_cons, Bool.and_eq_true] at hletters
          exact isSpace_of_isAlpha hletters.1
    exact streamFrom_of_stands 9 hstands
  have hsplit : nestedGroup q d =
      0x2E :: 0x61 :: 0x7B :: (0x40 :: ascii "media" ++ 0x20 :: (q ++ 0x7B ::
        (d ++ [0x7D, 0x7D]))) := rfl
  rw [tokenize, hsplit, hmark, hname, hmedia, hspace, streamFrom_word hne hletters,
    streamFrom_eq_map]
  rfl

theorem body_group {q : Bytes} (hne : q ≠ []) (hletters : q.all Byte.isAlpha = true) (d : Bytes) :
    Token.body (tokenize (nestedGroup q d)) =
      outerPrelude ++ braceAt 2 :: mediaAt 3 :: (mediaPrelude q ++ braceAt (10 + q.length) ::
        (Token.body (tokenize (d ++ [0x7D, 0x7D]))).map (moved (10 + q.length + 1))) := by
  rw [tokenize_group hne hletters, ← body_map]
  rfl

/-!
## Reading the group
-/

def groupFrames (selectors : Bool) (q : Bytes) : List Frame :=
  [⟨.atRule (ascii "media") q true, .declarations, []⟩, ruleFrame selectors outerPrelude]

theorem write_mediaPrelude {q : Bytes} : Token.write .prelude (mediaPrelude q) = q := by
  simp [Token.write, mediaPrelude, writeAfter, isSilent, isDelim, spaceAt, wordAt, ofLexeme,
    closedText, isOpenString, isOpenAddress, owed, owedAfter, closer?, closing?]

variable {o : Options}

theorem bodyOf_media (o : Options) : bodyOf o (ascii "media") = .rules o.isStrict := by
  have hkind : AtRuleKind.ofName (ascii "media") ≠ .keyframes := by decide
  have hgroup : AtRuleKind.isGroupName (ascii "media") = true := by decide
  rw [bodyOf, if_neg hkind, if_pos hgroup]

theorem run_group {limit : Nat} (q : Bytes) (rest : List Token) :
    run (o.upTo (limit + 2)) ⟨.rules o.isStrict, [], []⟩
        (outerPrelude ++ braceAt 2 :: mediaAt 3 ::
          (mediaPrelude q ++ braceAt (10 + q.length) :: rest)) =
      run (o.upTo (limit + 2)) (State.nested (.rules o.isStrict) (groupFrames o.isStrict q)
        ⟨.declarations, [], []⟩) rest := by
  let start : State := ⟨.rules o.isStrict, [], []⟩
  let rule : State := start.inside (ruleHead o.isStrict outerPrelude) .declarations
  have hrule : ∀ behind, run (o.upTo (limit + 2)) start (outerPrelude ++ braceAt 2 :: behind) =
      run (o.upTo (limit + 2)) rule behind := by
    intro behind
    have hkind : start.body.opensOn (markAt 0).kind := ⟨rfl, by decide, by decide⟩
    exact run_enterRule rfl hkind (by rintro ⟨⟩) rfl rfl (Nat.le_add_left 1 (limit + 1))
  have hmedia : run (o.upTo (limit + 2)) rule
      (mediaAt 3 :: (mediaPrelude q ++ braceAt (10 + q.length) :: rest)) =
        run _ (rule.inside _ _) rest :=
    run_enterAtRule rfl rfl rfl (Nat.le_add_left 2 limit)
  have hbody : bodyOf (o.upTo (limit + 2)) (mediaAt 3).value = .rules o.isStrict :=
    bodyOf_media _
  rw [hrule, hmedia, hbody, write_mediaPrelude]
  rfl

variable {q d : Bytes}

/-- The group, as a node with the nodes that were read in it. -/
def groupNode (q : Bytes) (children : List Node) : Node :=
  ⟨.rule (ascii ".a") (some [⟨[.className (ascii "a")], []⟩]),
    [⟨.atRule (ascii "media") q true, children⟩]⟩

theorem ruleHead_outerPrelude :
    ruleHead true outerPrelude =
      .rule (ascii ".a") (some [⟨[.className (ascii "a")], []⟩]) := by
  decide +kernel

theorem depth_groupNode (q : Bytes) (children : List Node) :
    Sheet.depth [groupNode q children] = Sheet.depth children + 2 := by
  rw [Sheet.depth, Sheet.depth, Nat.max_zero, groupNode, depth_of_hasBlock rfl, Sheet.depth,
    Sheet.depth, Nat.max_zero, depth_of_hasBlock rfl]

theorem body_behind {b : Token} (hbrace : EndsWithBrace (d ++ [0x7D]))
    (hbody : Token.body (tokenize (d ++ [0x7D])) = Token.body (tokenize d) ++ [b]) :
    ∃ b', b'.kind = .rightBrace ∧
      Token.body (tokenize (d ++ [0x7D, 0x7D])) = Token.body (tokenize d) ++ b :: [b'] := by
  have hbehind := tokenize_append hbrace.isTerminated [0x7D]
  have hsplit : d ++ [0x7D] ++ [0x7D] = d ++ [0x7D, 0x7D] := by simp
  refine ⟨ofLexeme (.verbatim .rightBrace [0x7D]) (d ++ [0x7D]).length false, rfl, ?_⟩
  have hend : ∀ offset, Token.body (streamFrom offset []) = [] := fun offset =>
    body_of_streamFrom (List.nil_append (streamFrom offset [])).symm
  rw [← hsplit, hbehind, body_append fun u hu => kind_of_mem_body hu,
    streamFrom_punctuation _ _ rfl, body_cons _ (by rintro ⟨⟩), hend, hbody]
  simp

theorem noBad_of_block {sheet : Sheet} (hq : q ≠ []) (hletters : q.all Byte.isAlpha = true)
    (hstrict : o.isStrict = true) (hread : parse o (blockText (ascii "x") d) = .ok sheet)
    (hbrace : EndsWithBrace (d ++ [0x7D])) :
    (tokenize (nestedGroup q d)).any Token.isBad = false := by
  have hblock := noBad_of_parse hstrict hread
  rw [tokenize_block (by decide) (by decide), List.any_cons, List.any_cons, List.any_map] at hblock
  have hinner : (tokenize (d ++ [0x7D])).any Token.isBad = false := hblock
  have hboth := noBad_append hinner (y := [0x7D]) (by decide +kernel) hbrace.isTerminated
  have hsplit : d ++ [0x7D] ++ [0x7D] = d ++ [0x7D, 0x7D] := by simp
  have hmoved : ∀ n, Token.isBad ∘ moved n = Token.isBad := fun _ => rfl
  rw [hsplit] at hboth
  rw [tokenize_group hq hletters, outerPrelude, mediaPrelude]
  simp only [List.cons_append, List.nil_append, List.any_cons, List.any_map, hmoved, hboth]
  rfl

/-- The text `d` can stand in the block of the group, and its tokens are those in front of the brace
`b`. -/
structure InGroup (q d : Bytes) (b : Token) : Prop where
  named : q ≠ []
  letters : q.all Byte.isAlpha = true
  good : (tokenize (nestedGroup q d)).any Token.isBad = false
  brace : b.kind = .rightBrace
  ends : EndsWithBrace (d ++ [0x7D])
  body : Token.body (tokenize (d ++ [0x7D])) = Token.body (tokenize d) ++ [b]

theorem InGroup.parse_of_run {limit : Nat} {b : Token} (h : InGroup q d b)
    (hstrict : o.isStrict = true) {st : State} (hframes : st.frames = [])
    (hfills : ∀ more,
      run (o.upTo (limit + 2)) (State.nested (.rules o.isStrict) (groupFrames o.isStrict q)
          ⟨.declarations, [], []⟩) (Token.body (tokenize d) ++ b :: more) =
        run (o.upTo (limit + 2)) (st.nested (.rules o.isStrict) (groupFrames o.isStrict q))
          (b :: more)) :
    parse (o.upTo (limit + 2)) (nestedGroup q d) = .ok [groupNode q st.nodes.reverse] := by
  rcases body_behind h.ends h.body with ⟨b', hb', hbehind⟩
  have hrun : run (o.upTo (limit + 2)) ⟨.rules o.isStrict, [], []⟩
      (Token.body (tokenize (nestedGroup q d))) =
        .ok ⟨.rules o.isStrict, [groupNode q st.nodes.reverse], []⟩ := by
    rw [body_group h.named h.letters, run_group, run_map, hbehind, hfills [b'], groupFrames,
      run_close_nested h.brace hframes, ruleFrame, run_close hb', run_nil, hstrict,
      ruleHead_outerPrelude]
    rfl
  have hbuild : build (o.upTo (limit + 2)) (.rules o.isStrict) (tokenize (nestedGroup q d)) =
      .ok [groupNode q st.nodes.reverse] := by
    rw [build, hrun]
    simp [finish, State.closeAll]
  rw [parse, ofTokens_eq_build fun _ => h.good]
  exact hbuild

/-!
## What becomes of the text
-/

theorem run_of_noBraces {st : State} {selectors : Bool} {ts rest : List Token} {b : Token}
    (hbody : st.body = .rules selectors) (hb : b.kind = .rightBrace)
    (h : ∀ t ∈ ts, t.kind ≠ .leftBrace ∧ t.kind ≠ .rightBrace ∧ t.kind ≠ .atKeyword) :
    run o st (ts ++ b :: rest) = run o st (b :: rest) := by
  induction ts with
  | nil => rfl
  | cons t ts ih =>
      cases hskip : st.body.skips t.kind with
      | true =>
          rw [List.cons_append, run_cons_of_ok (step_skips hskip)]
          exact ih (List.forall_mem_cons.mp h).2
      | false =>
          have hkind : st.body.opensOn t.kind :=
            ⟨hskip, (h t List.mem_cons_self).2.1, (h t List.mem_cons_self).2.2⟩
          have hseek : st.body.seeksRule (t :: (ts ++ b :: rest)) := by
            intro hdeclarations
            rw [hbody] at hdeclarations
            cases hdeclarations
          have hends : ∀ d, endsPrelude false d b = true := by simp [endsPrelude, hb]
          have hgoes : ∀ u ∈ t :: ts, ∀ d, endsPrelude false d u = false :=
            fun u hu => by simp [endsPrelude, h u hu]
          have hsplit := splitPrelude_of_ends hgoes hends rest 0
          have hstep : step o st t (ts ++ b :: rest) = .ok (st, b :: rest) := by
            rw [step_rule hkind hseek, stepRule, ← List.cons_append, hsplit]
            simp [hb]
          exact run_cons_of_ok hstep

theorem InGroup.parse_of_rules {limit : Nat} {b : Token} {st : State} (h : InGroup q d b)
    (hstrict : o.isStrict = true)
    (hfills : Fills (o.upTo limit) b ⟨.declarations, [], []⟩ (Token.body (tokenize d)) st)
    (hrules : ∀ left ∈ outerMoments (o.upTo limit).leniently ⟨.declarations, [], []⟩
      (Token.body (tokenize d)), beginsRule left = true) :
    parse (o.upTo (limit + 2)) (nestedGroup q d) = .ok [groupNode q st.nodes.reverse] :=
  h.parse_of_run hstrict hfills.frames
    (hfills.run_nested (State.Grown.start _ _ _) hrules h.brace (groupFrames o.isStrict q))

theorem InGroup.parse_of_noBlocks {b : Token} (h : InGroup q d b) (hstrict : o.isStrict = true)
    (hnone : holdsNoBlocks d = true) (limit : Nat) :
    parse (o.upTo (limit + 2)) (nestedGroup q d) = .ok [groupNode q []] := by
  have hplain : ∀ t ∈ Token.body (tokenize d),
      t.kind ≠ .leftBrace ∧ t.kind ≠ .rightBrace ∧ t.kind ≠ .atKeyword := by
    simpa [holdsNoBlocks, and_assoc] using hnone
  let empty : State := ⟨.declarations, [], []⟩
  have hframes : empty.frames = [] := rfl
  exact h.parse_of_run hstrict hframes fun more => run_of_noBraces rfl h.brace hplain

/-- A declaration list that is the whole block of a rule, read inside of a media rule in a style
rule. What holds only rules is kept, one level deeper in the tree. What holds neither blocks nor
at-rules is lost, and no declaration is ever kept. -/
theorem rules_kept_in_group {node : Node} (hq : q ≠ []) (hletters : q.all Byte.isAlpha = true)
    (hread : parse {} (blockText (ascii "x") d) = .ok [node])
    (hbrace : EndsWithBrace (blockText (ascii "x") d)) :
    mapHeads Head.unread node.children = parseDeclarations d ∧
      (holdsOnlyRules d = true ->
        parse {} (nestedGroup q d) =
            (if Sheet.depth node.children + 2 ≤ 256 then .ok [groupNode q node.children]
              else .error (.tooDeep 256)) ∧
          Sheet.write node.children = Sheet.write (parseDeclarations d)) ∧
      (holdsNoBlocks d = true -> parse {} (nestedGroup q d) = .ok [groupNode q []]) ∧
      ∀ sheet group, parse {} (nestedGroup q d) = .ok sheet -> Within sheet group ->
        group.head = .atRule (ascii "media") q true ->
          (∀ child ∈ group.children, child.head.isDeclaration = false) ∧
            ((∃ found ∈ parseDeclarations d, found.head.isDeclaration = true) ->
              mapHeads Head.unread group.children ≠ parseDeclarations d) := by
  have hlimit : ({} : Options).upTo 256 = {} := rfl
  have hdeeper : parse (({} : Options).upTo (256 + 1)) (blockText (ascii "x") d) = .ok [node] := by
    rw [← hlimit] at hread
    rcases parse_upTo_of_ok hread with ⟨hdepth, _, hlimited⟩
    exact (hlimited 257).trans (if_pos (Nat.le_succ_of_le hdepth))
  rcases fills_of_parse rfl (by decide) (by decide) hdeeper hbrace with
    ⟨b, st, hb, hbody, hfills, rfl⟩
  have hends : EndsWithBrace (d ++ [0x7D]) :=
    endsWithBrace_of_block (by decide) (by decide) hbrace
  have hgroup : InGroup q d b :=
    ⟨hq, hletters, noBad_of_block hq hletters rfl hread hends, hb, hends, hbody⟩
  have hunread : mapHeads Head.unread st.nodes.reverse = parseDeclarations d :=
    (parseDeclarations_of_fills hb hfills).symm
  refine ⟨hunread, fun hrules => ⟨?_, ?_⟩, ?_, ?_⟩
  · have hdeep : parse (({} : Options).upTo (256 + 2)) (nestedGroup q d) = .ok _ :=
      hgroup.parse_of_rules rfl hfills (List.all_eq_true.mp hrules)
    have hwithin := (parse_upTo_of_ok hdeep).2.2 256
    rwa [depth_groupNode] at hwithin
  · rw [← hunread, write_mapHeads Head.retains_unread]
  · intro hnone
    rw [← hlimit]
    exact hgroup.parse_of_noBlocks rfl hnone 254
  · intro sheet group hsheet hwithin hhead
    have hchildren : ∀ child ∈ group.children, child.head.isDeclaration = false :=
      ((wellShaped_of_parse hsheet).2 group hwithin).rules _ _ _ hhead (by decide)
    refine ⟨hchildren, ?_⟩
    rintro ⟨found, hfound, hdeclaration⟩ hsame
    rw [← hsame, mapHeads_eq_map, List.mem_map] at hfound
    rcases hfound with ⟨⟨head, children⟩, hchild, rfl⟩
    have hkept := (Head.retains_unread.declaration head).symm.trans hdeclaration
    rw [hchildren _ hchild] at hkept
    cases hkept

def rulesText : Bytes :=
  ascii "b\x7bc:d\x7d"

def declaredText : Bytes :=
  ascii "color:red"

def namedNode (children : List Node) : Node :=
  ⟨.rule (ascii "x") (some [⟨[.element (ascii "x")], []⟩]), children⟩

def innerRule : Node :=
  ⟨.rule (ascii "b") (some [⟨[.element (ascii "b")], []⟩]),
    [⟨.declaration (ascii "c") (ascii "d") false, []⟩]⟩

def declaredNode : Node :=
  ⟨.declaration (ascii "color") (ascii "red") false, []⟩

theorem rules_kept_in_group_of_print :
    parse {} (nestedGroup (ascii "print") rulesText) =
        .ok [groupNode (ascii "print") [innerRule]] ∧
      parse {} (nestedGroup (ascii "print") declaredText) = .ok [groupNode (ascii "print") []] ∧
      mapHeads Head.unread [] ≠ parseDeclarations declaredText := by
  have hrules : parse {} (blockText (ascii "x") rulesText) = .ok [namedNode [innerRule]] :=
    eq_ok_of_toOption (by decide +kernel)
  have hrulesEnd : EndsWithBrace (blockText (ascii "x") rulesText) :=
    ⟨ofLexeme (.verbatim .rightBrace [0x7D]) 8 false, by decide +kernel, rfl, rfl⟩
  have hdeclared : parse {} (blockText (ascii "x") declaredText) = .ok [namedNode [declaredNode]] :=
    eq_ok_of_toOption (by decide +kernel)
  have hdeclaredEnd : EndsWithBrace (blockText (ascii "x") declaredText) :=
    ⟨ofLexeme (.verbatim .rightBrace [0x7D]) 11 false, by decide +kernel, rfl, rfl⟩
  have hletters : (ascii "print").all Byte.isAlpha = true := by decide
  have hkept := rules_kept_in_group (by decide) hletters hrules hrulesEnd
  have hlost := rules_kept_in_group (by decide) hletters hdeclared hdeclaredEnd
  have hempty := hlost.2.2.1 (by decide +kernel)
  refine ⟨(hkept.2.1 (by decide +kernel)).1.trans (if_pos (by decide)), hempty, ?_⟩
  apply (hlost.2.2.2 _ _ hempty (.inside (.top List.mem_cons_self) List.mem_cons_self) rfl).2
  exact ⟨declaredNode, by decide +kernel, rfl⟩

end Sheet
end StyleTrim
