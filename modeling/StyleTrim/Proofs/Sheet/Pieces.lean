import StyleTrim.Proofs.Sheet.Ahead
import StyleTrim.Proofs.Sheet.Stretches
import StyleTrim.Proofs.Token.Marks

/-!
# The pieces of a written tree

A written tree is made of few pieces: the opening of an at-rule, the prelude of a rule, a
declaration, and braces and semicolons between them. Each piece is read as tokens on which the
machine takes the step that the piece was written for.
-/

namespace StyleTrim
namespace Sheet

open Token

variable {o : Options} {st : State} {t u : Token} {ts us rest : List Token}

/-!
## Steps that are known
-/

theorem step_atKeyword (h : t.kind = .atKeyword) : step o st t ts = stepAtRule o st t.value ts := by
  unfold step
  split
  · simp only [stepInRules, h]
  · simp only [stepInDeclarations, h]

theorem step_skips (h : st.body.skips t.kind = true) : step o st t ts = .ok (st, ts) := by
  rw [step]
  cases hbody : st.body with
  | rules selectors =>
      simp only [hbody, Body.skips, Bool.or_eq_true, beq_iff_eq] at h
      rcases h with ((hkind | hkind) | hkind) | hkind <;> simp only [stepInRules, hkind]
  | declarations =>
      simp only [hbody, Body.skips, Bool.or_eq_true, beq_iff_eq] at h
      rcases h with hkind | hkind <;> simp only [stepInDeclarations, hkind]

theorem step_rule (hkind : st.body.opensOn t.kind) (hseek : st.body.seeksRule (t :: ts)) :
    step o st t ts = stepRule o st (st.body.readsSelectors o) (t :: ts) := by
  rcases hkind with ⟨hskip, hbrace, hat⟩
  unfold step
  split
  · rename_i selectors hbody
    simp only [hbody, Body.skips, Bool.or_eq_false_iff, beq_eq_false_iff_ne] at hskip
    rw [hbody]
    unfold stepInRules
    split <;> simp_all [Body.readsSelectors]
  · rename_i hbody
    simp only [hbody, Body.skips, Bool.or_eq_false_iff, beq_eq_false_iff_ne] at hskip
    rcases hseek hbody with ⟨hahead, hrule⟩
    rw [hbody]
    unfold stepInDeclarations
    split <;> simp_all [Body.readsSelectors]

theorem step_declaration {opening : Opening} (hbody : st.body = .declarations)
    (hkind : Body.declarations.opensOn t.kind)
    (hahead : declarationAhead? (t :: ts) = some opening) :
    step o st t ts = .ok (stepDeclaration st opening) := by
  rcases hkind with ⟨hskip, hbrace, hat⟩
  simp only [Body.skips, Bool.or_eq_false_iff, beq_eq_false_iff_ne] at hskip
  unfold step
  rw [hbody]
  simp only
  unfold stepInDeclarations
  split <;> simp_all

theorem run_close {body b : Body} {head : Head} {nodes before : List Node} {frames : List Frame}
    (h : t.kind = .rightBrace) :
    run o ⟨body, nodes, ⟨head, b, before⟩ :: frames⟩ (t :: ts) =
      run o ⟨b, ⟨head, nodes.reverse⟩ :: before, frames⟩ ts := by
  apply run_cons_of_ok
  unfold step
  cases body with
  | rules selectors => simp [stepInRules, h, State.close]
  | declarations => simp [stepInDeclarations, h, State.close]

theorem splitPrelude_ends {statement : Bool}
    (hcount : us.foldl (preludeAfter statement) (some 0) = some 0)
    (hends : endsPrelude statement 0 u = true) :
    splitPrelude statement 0 (us ++ u :: rest) = (us, u :: rest) := by
  rw [splitPrelude_behind hcount, splitPrelude, if_pos hends, List.append_nil]

theorem run_statement (hat : t.kind = .atKeyword)
    (hcount : us.foldl (preludeAfter true) (some 0) = some 0) (hsemi : u.kind = .semicolon) :
    run o st (t :: (us ++ u :: rest)) =
      run o (st.push ⟨.atRule t.value (Token.write .prelude us) false, []⟩) rest := by
  apply run_cons_of_ok
  rw [step_atKeyword hat, stepAtRule, splitPrelude_ends hcount (by simp [endsPrelude, hsemi])]
  simp [hsemi]

def State.inside (st : State) (head : Head) (body : Body) : State :=
  { body := body, nodes := [], frames := ⟨head, st.body, st.nodes⟩ :: st.frames }

theorem State.enter_of_le {head : Head} {body : Body} (h : st.frames.length + 1 ≤ o.maxDepth) :
    st.enter o head body = .ok (st.inside head body) := by
  rw [State.enter, if_neg (Nat.not_lt.mpr h)]
  rfl

theorem run_enterAtRule_of_split (hat : t.kind = .atKeyword)
    (hsplit : splitPrelude true 0 (us ++ u :: rest) = (us, u :: rest)) (hopen : u.kind = .leftBrace)
    (hdepth : st.frames.length + 1 ≤ o.maxDepth) :
    run o st (t :: (us ++ u :: rest)) =
      run o (st.inside (.atRule t.value (Token.write .prelude us) true) (bodyOf o t.value))
        rest := by
  apply run_cons_of_ok
  rw [step_atKeyword hat, stepAtRule, hsplit]
  simp [hopen, State.enter_of_le hdepth]

theorem run_enterAtRule (hat : t.kind = .atKeyword)
    (hcount : us.foldl (preludeAfter true) (some 0) = some 0) (hopen : u.kind = .leftBrace)
    (hdepth : st.frames.length + 1 ≤ o.maxDepth) :
    run o st (t :: (us ++ u :: rest)) =
      run o (st.inside (.atRule t.value (Token.write .prelude us) true) (bodyOf o t.value))
        rest := by
  have hends : endsPrelude true 0 u = true := by simp [endsPrelude, hopen]
  exact run_enterAtRule_of_split hat (splitPrelude_ends hcount hends) hopen hdepth

theorem run_enterRule {y : List Token} (hfront : us ++ u :: rest = t :: y)
    (hkind : st.body.opensOn t.kind) (hseek : st.body.seeksRule (us ++ u :: rest))
    (hcount : us.foldl (preludeAfter false) (some 0) = some 0) (hopen : u.kind = .leftBrace)
    (hdepth : st.frames.length + 1 ≤ o.maxDepth) :
    run o st (us ++ u :: rest) =
      run o (st.inside (ruleHead (st.body.readsSelectors o) us) .declarations) rest := by
  rw [hfront] at hseek ⊢
  apply run_cons_of_ok
  rw [step_rule hkind hseek, ← hfront, stepRule,
    splitPrelude_ends hcount (by simp [endsPrelude, hopen])]
  simp [hopen, State.enter_of_le hdepth]

theorem foldl_valueAfter_plain (depths : Option (Nat × Nat)) (h : ∀ t ∈ ts, isPlain t) :
    ts.foldl valueAfter depths = depths := by
  induction ts with
  | nil => rfl
  | cons t ts ih =>
      have ht : valueAfter depths t = depths := by
        cases depths with
        | none => rfl
        | some d =>
            rcases h t List.mem_cons_self with ht | ht | ht | ht <;>
              simp [valueAfter, depthAfter, bracesAfter, ht]
      rw [List.foldl_cons, ht]
      exact ih fun u hu => h u (List.mem_cons_of_mem _ hu)

def EndsDeclaration (rest : List Token) : Prop :=
  ∀ t ∈ rest.head?, t.kind = .semicolon ∨ t.kind = .rightBrace

theorem splitValue_ends (hcount : us.foldl valueAfter (some (0, 0)) = some (0, 0))
    (hrest : EndsDeclaration rest) : splitValue 0 0 (us ++ rest) = (us, rest) := by
  rw [splitValue_behind hcount]
  cases rest with
  | nil => simp [splitValue]
  | cons t rest => rw [splitValue, if_pos ⟨rfl, rfl, hrest t rfl⟩, List.append_nil]

theorem run_declaration {opening : Opening} {star value : List Token} {name colon : Token}
    {node : Node} (hbody : st.body = .declarations)
    (hstands : opening.Stands star name [] colon) (hopening : opening.rest = value ++ rest)
    (hcount : value.foldl valueAfter (some (0, 0)) = some (0, 0)) (hrest : EndsDeclaration rest)
    (hahead : (ascii "--").isPrefixOf opening.name = true ∨
      ruleAhead 0 (star ++ name :: colon :: opening.rest) = false)
    (hnode : declaration? opening.property value = some node) :
    run o st (star ++ name :: colon :: (value ++ rest)) =
      run o (st.push node) (dropSemicolon rest) := by
  have hopens : opening? (star ++ name :: colon :: opening.rest) = some opening :=
    opening?_of_stands hstands
  have hdeclaration : declarationAhead? (star ++ name :: colon :: opening.rest) = some opening := by
    rw [declarationAhead?, hopens]
    rcases hahead with hcustom | hno
    · simp [hcustom]
    · simp [hno]
  have hstep : stepDeclaration st opening = (st.push node, dropSemicolon rest) := by
    rw [stepDeclaration, hopening, splitValue_ends hcount hrest]
    simp [hnode]
  rw [← hopening]
  rcases hstands.front with rfl | ⟨t, rfl, ht⟩
  · rw [List.nil_append] at hdeclaration ⊢
    apply run_cons_of_ok
    rw [step_declaration hbody ?_ hdeclaration, hstep]
    simp [Body.opensOn, Body.skips, hstands.ident]
  · rw [List.singleton_append] at hdeclaration ⊢
    apply run_cons_of_ok
    rw [step_declaration hbody ?_ hdeclaration, hstep]
    simp only [Token.isDelim, Bool.and_eq_true, beq_iff_eq] at ht
    simp [Body.opensOn, Body.skips, ht.1]

/-!
## Reading the text of a piece
-/

/-- The tokens that are read from the name and the prelude of an at-rule. -/
structure AtOpening (name : Bytes) (ts : List Token) (t : Token) (us : List Token) : Prop where
  kind : t.kind = .atKeyword
  value : t.value = name
  count : us.foldl (preludeAfter true) (some 0) = some 0
  text : Token.write .prelude us = Token.write .prelude ts
  clean : us.any Token.isBad = true -> ts.any Token.isBad = true

theorem endsName_of_isBlunt {b : UInt8} (h : Lexeme.isBlunt b = true) (s : Bytes) :
    Lexeme.EndsName (b :: s) := by
  intro c hc
  obtain rfl : b = c := by simpa using hc
  have hb := Lexeme.bluntByte_of_isBlunt h
  exact ⟨hb.name, hb.slash⟩

theorem read_atOpening {name : Bytes} {d : Nat} {b : UInt8} {kind : TokenKind}
    (hstart : Lexeme.startsName name = true) (hall : name.all Byte.isName = true)
    (hlexed : Lexed ts) (hsep : separable .prelude none false ts = true)
    (hcount : ts.foldl (preludeAfter true) (some 0) = some d)
    (hmark : Lexeme.punctuation? b = some kind) (hb : b = 0x3B ∨ b = 0x7B) (tail : Bytes)
    (offset : Nat) :
    ∃ t us u offset', streamFrom offset (0x40 :: name ++
          ((if (Token.write .prelude ts).isEmpty then [] else 0x20 :: Token.write .prelude ts) ++
            b :: tail)) = t :: (us ++ u :: streamFrom offset' tail) ∧
      u.kind = kind ∧ AtOpening name ts t us := by
  have hblunt : Lexeme.isBlunt b = true ∧ b ≠ 0x21 ∧ Byte.isSpace b = false := by
    rcases hb with rfl | rfl <;> decide
  have hends : EndsRun (b :: tail) := endsRun_cons hblunt.1 hblunt.2.1 hblunt.2.2 tail
  by_cases hempty : Token.write .prelude ts = []
  · have hkeyword := stands_keyword hstart hall (endsName_of_isBlunt hblunt.1 tail)
    refine ⟨Token.ofLexeme ⟨.atKeyword, name, 0x40 :: name, false⟩ offset false, [],
      Token.ofLexeme (Lexeme.verbatim kind [b]) (offset + (name.length + 1)) false,
      offset + (name.length + 1) + 1, ?_, rfl, rfl, rfl, rfl, ?_, ?_⟩
    · rw [hempty]
      exact (streamFrom_of_stands offset hkeyword).trans
        (congrArg _ (streamFrom_punctuation _ tail hmark))
    · rw [hempty]
      rfl
    · nofun
  · have hkeyword := stands_keyword (s := 0x20 :: (Token.write .prelude ts ++ b :: tail))
      hstart hall (endsName_of_isBlunt (by decide) _)
    have hspace := stands_space (write_head .prelude hlexed hends.space)
    rcases read_write hlexed hsep hends (offset + (name.length + 1) + 1) with
      ⟨us, next, hread, hsettles⟩
    refine ⟨Token.ofLexeme ⟨.atKeyword, name, 0x40 :: name, false⟩ offset false,
      Token.ofLexeme ⟨.whitespace, [0x20], [0x20], false⟩ (offset + (name.length + 1))
        false :: us, Token.ofLexeme (Lexeme.verbatim kind [b]) next false, next + 1, ?_, rfl, rfl,
      rfl, ?_, ?_, ?_⟩
    · have hfirst := streamFrom_of_stands offset hkeyword
      have hsecond := streamFrom_of_stands (offset + (name.length + 1)) hspace
      rw [show (Lexeme.mk .whitespace [0x20] [0x20] false).raw.length = 1 from rfl, hread,
        streamFrom_punctuation next tail hmark] at hsecond
      rw [if_neg (by simpa using hempty)]
      exact hfirst.trans (congrArg _ hsecond)
    · rw [List.foldl_cons]
      exact preludeAfter_settles hsettles hcount
    · rw [write_space us rfl]
      exact write_settles hsettles
    · intro hbad
      exact bad_of_settles hsettles hbad

theorem read_property {opening : Opening} {star gap : List Token} {name colon : Token}
    (hlexed : Lexed (star ++ name :: (gap ++ colon :: opening.rest)))
    (hstands : opening.Stands star name gap colon) (tail : Bytes) (offset : Nat) :
    ∃ star' name' colon' offset', streamFrom offset (opening.property ++ 0x3A :: tail) =
        star' ++ name' :: colon' :: streamFrom offset' tail ∧
      (∀ rest, (Opening.mk opening.property opening.name rest).Stands star' name' [] colon') := by
  have hblunt : Lexeme.Blunt (0x3A :: tail) := .cons (by decide) (by decide) tail
  have hspace : ∀ b ∈ (0x3A :: tail).head?, Byte.isSpace b = false := by
    intro b hb
    obtain rfl : 0x3A = b := Option.some.inj hb
    decide
  have hname : ∀ offset, ∃ name' colon' offset', streamFrom offset (name.raw ++ 0x3A :: tail) =
      name' :: colon' :: streamFrom offset' tail ∧ name'.kind = .ident ∧
        name'.value = name.value ∧ name'.raw = name.raw ∧ colon'.kind = .colon := by
    intro offset
    have hwritten := (Written.of_lexed hlexed.suffix (by simp [hstands.ident])
      (by simp [Token.isDelim, hstands.ident])).1
    rcases stands_before_blunt hwritten hblunt hspace (by simp [hstands.ident]) with
      ⟨m, hm, hstand⟩
    obtain rfl : m = name.lexeme := hm.same (by
      simp [isOpen, isOpenString, isOpenAddress, hstands.ident])
    refine ⟨Token.ofLexeme name.lexeme offset false,
      Token.ofLexeme (Lexeme.verbatim .colon [0x3A]) (offset + name.raw.length) false,
      offset + name.raw.length + 1, ?_, hstands.ident, rfl, rfl, rfl⟩
    exact (streamFrom_of_stands offset hstand).trans
      (congrArg _ (streamFrom_punctuation _ tail rfl))
  rcases hstands.front with rfl | ⟨t, rfl, ht⟩
  · rcases hname offset with ⟨name', colon', next, hread, hident, hvalue, hraw, hcolon⟩
    have hproperty : opening.property = name.raw := by simpa using hstands.property
    refine ⟨[], name', colon', next, ?_, fun rest => ?_⟩
    · rw [hproperty]
      exact hread
    · refine ⟨Or.inl rfl, hident, by simp, hcolon, ?_, hstands.value.trans hvalue.symm⟩
      rw [hraw]
      exact hstands.property
  · have hraw : t.raw = [0x2A] := by
      cases hlexed with
      | cons hshape hnext hlast hargument htail =>
          rcases hshape with ⟨s, hshape⟩
          simp only [Token.isDelim, Bool.and_eq_true, beq_iff_eq] at ht
          exact (Lexeme.raw_of_delim hshape ht.1).trans ht.2
    have hlone := Lexeme.lone_of_isSingle (b := 0x2A) rfl (name.raw ++ 0x3A :: tail)
    have hstar := stands_delim hlone (by decide)
    rcases hname (offset + 1) with ⟨name', colon', next, hread, hident, hvalue, hraw', hcolon⟩
    have hproperty : opening.property = 0x2A :: name.raw := by
      simpa [hraw] using hstands.property
    refine ⟨[Token.ofLexeme (Lexeme.delim 0x2A) offset false], name', colon', next, ?_,
      fun rest => ?_⟩
    · rw [hproperty]
      exact (streamFrom_of_stands offset hstar).trans (congrArg _ hread)
    · refine ⟨Or.inr ⟨_, rfl, rfl⟩, hident, by simp, hcolon, ?_, hstands.value.trans hvalue.symm⟩
      rw [hraw', hproperty]
      rfl

theorem read_important {b : UInt8} (hb : b = 0x3B ∨ b = 0x7D) (tail : Bytes) (offset : Nat) :
    ∃ bang word offset', streamFrom offset (ascii "!important" ++ b :: tail) =
        bang :: word :: streamFrom offset' (b :: tail) ∧
      bang.isDelim 0x21 = true ∧ word.kind = .ident ∧
        lower word.value = ascii "important" := by
  have hstop : Lexeme.EndsName (b :: tail) := by
    apply endsName_of_isBlunt
    rcases hb with rfl | rfl <;> decide
  have hparen : (b :: tail).head? ≠ some 0x28 := by
    rcases hb with rfl | rfl <;> simp
  have hword := stands_word (x := ascii "important") ⟨by decide, by decide⟩ (by decide)
    (by decide) hstop hparen
  have hlower : lower (ascii "important") = ascii "important" := by decide
  have hlone := Lexeme.lone_of_isSingle (b := 0x21) rfl (ascii "important" ++ b :: tail)
  have hbang := stands_delim hlone (by decide)
  refine ⟨Token.ofLexeme (Lexeme.delim 0x21) offset false,
    Token.ofLexeme ⟨.ident, ascii "important", ascii "important", false⟩ (offset + 1) false,
    offset + 1 + 9, ?_, rfl, rfl, hlower⟩
  exact (streamFrom_of_stands offset hbang).trans
    (congrArg _ (streamFrom_of_stands (offset + 1) hword))

end Sheet
end StyleTrim
