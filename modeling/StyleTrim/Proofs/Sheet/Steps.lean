import StyleTrim.Sheet.Parser

/-!
# What a step can do

Everything that is proved about the building of a tree starts from the list of things that one
step can do. The list is `Takes`; each entry keeps the tests that led to it, so a proof about
steps never has to open the machine again. `run_induction` carries what every step preserves to a
whole run.
-/

namespace StyleTrim
namespace Sheet

/-- Tokens that are passed over in a list of nodes. -/
def Body.skips : Body -> TokenKind -> Bool
  | .rules _, kind =>
      kind == .whitespace || kind == .cdo || kind == .cdc || kind == .semicolon
  | .declarations, kind => kind == .whitespace || kind == .semicolon

theorem skips_rules_eq_false {selectors : Bool} {kind : TokenKind}
    (hspace : kind ≠ .whitespace) (hcdo : kind ≠ .cdo) (hcdc : kind ≠ .cdc)
    (hsemi : kind ≠ .semicolon) : (Body.rules selectors).skips kind = false := by
  simp [Body.skips, hspace, hcdo, hcdc, hsemi]

theorem skips_declarations_eq_false {kind : TokenKind} (hspace : kind ≠ .whitespace)
    (hsemi : kind ≠ .semicolon) : Body.declarations.skips kind = false := by
  simp [Body.skips, hspace, hsemi]

def Body.readsSelectors (o : Options) : Body -> Bool
  | .rules selectors => selectors
  | .declarations => o.isStrict

def Body.opensOn (body : Body) (kind : TokenKind) : Prop :=
  body.skips kind = false ∧ kind ≠ .rightBrace ∧ kind ≠ .atKeyword

def Body.seeksRule (body : Body) (ts : List Token) : Prop :=
  body = .declarations -> declarationAhead? ts = none ∧ ruleAhead 0 ts = true

/-- A statement ends at the end of the tokens, with its semicolon, or before the closing brace of
the block around it. -/
inductive EndsStatement : List Token -> List Token -> Prop where
  | atEnd : EndsStatement [] []
  | semicolon {u : Token} {rest : List Token} (h : u.kind = .semicolon) :
      EndsStatement (u :: rest) rest
  | brace {u : Token} {rest : List Token} (h : u.kind = .rightBrace) :
      EndsStatement (u :: rest) (u :: rest)

/-- The state and the tokens that a step may leave. -/
inductive Takes (o : Options) (st : State) (t : Token) (ts : List Token) :
    State -> List Token -> Prop where
  | pass (hskip : st.body.skips t.kind = true) : Takes o st t ts st ts
  | close (hbrace : t.kind = .rightBrace)
      (hinside : st.body ≠ .declarations -> st.frames = [] -> o.isStrict = false) :
      Takes o st t ts st.close ts
  | statement {rest : List Token} (hat : t.kind = .atKeyword)
      (hend : EndsStatement (splitPrelude true 0 ts).2 rest) :
      Takes o st t ts
        (st.push ⟨.atRule t.value (Token.write .prelude (splitPrelude true 0 ts).1) false, []⟩)
        rest
  | enterAtRule {st' : State} {u : Token} {rest : List Token} (hat : t.kind = .atKeyword)
      (hsplit : (splitPrelude true 0 ts).2 = u :: rest) (hopen : u.kind = .leftBrace)
      (henter : st.enter o
        (.atRule t.value (Token.write .prelude (splitPrelude true 0 ts).1) true)
        (bodyOf o t.value) = .ok st') :
      Takes o st t ts st' rest
  | enterRule {st' : State} {u : Token} {rest : List Token}
      (hkind : st.body.opensOn t.kind) (hseek : st.body.seeksRule (t :: ts))
      (hsplit : (splitPrelude false 0 (t :: ts)).2 = u :: rest) (hopen : u.kind = .leftBrace)
      (henter : st.enter o
        (ruleHead (st.body.readsSelectors o) (splitPrelude false 0 (t :: ts)).1)
        .declarations = .ok st') :
      Takes o st t ts st' rest
  | dropRule (hkind : st.body.opensOn t.kind) (hseek : st.body.seeksRule (t :: ts))
      (hend : (splitPrelude false 0 (t :: ts)).2 = [] -> o.isStrict = false)
      (hopen : ∀ u ∈ (splitPrelude false 0 (t :: ts)).2.head?, u.kind ≠ .leftBrace) :
      Takes o st t ts st (splitPrelude false 0 (t :: ts)).2
  | declare {opening : Opening} (hbody : st.body = .declarations)
      (hkind : st.body.opensOn t.kind)
      (hahead : declarationAhead? (t :: ts) = some opening) :
      Takes o st t ts (stepDeclaration st opening).1 (stepDeclaration st opening).2
  | malformed (hbody : st.body = .declarations) (hkind : st.body.opensOn t.kind)
      (hahead : declarationAhead? (t :: ts) = none) (hrule : ruleAhead 0 (t :: ts) = false) :
      Takes o st t ts st (skipMalformed (t :: ts))

theorem splitPrelude_head_ends {statement : Bool} {depth : Nat} {ts rest : List Token}
    {u : Token} (h : (splitPrelude statement depth ts).2 = u :: rest) :
    u.kind = .leftBrace ∨ u.kind = .rightBrace ∨ (statement = true ∧ u.kind = .semicolon) := by
  induction ts generalizing depth with
  | nil => simp [splitPrelude] at h
  | cons t ts ih =>
      unfold splitPrelude at h
      split at h
      · rename_i hends
        obtain ⟨rfl, rfl⟩ := List.cons.inj h
        simp only [endsPrelude, Bool.or_eq_true, Bool.and_eq_true, beq_iff_eq] at hends
        rcases hends with (hopen | hclose) | ⟨⟨hstatement, _⟩, hsemi⟩
        · exact Or.inl hopen
        · exact Or.inr (Or.inl hclose)
        · exact Or.inr (Or.inr ⟨hstatement, hsemi⟩)
      · exact ih h

theorem stepAtRule_takes {o : Options} {st st' : State} {t : Token} {ts rest : List Token}
    (hat : t.kind = .atKeyword) (h : stepAtRule o st t.value ts = .ok (st', rest)) :
    Takes o st t ts st' rest := by
  unfold stepAtRule at h
  dsimp only at h
  split at h
  · rename_i hsplit
    cases h
    exact .statement hat (hsplit ▸ .atEnd)
  · rename_i u after hsplit
    split at h
    · rename_i hsemi
      cases h
      exact .statement hat (hsplit ▸ .semicolon hsemi)
    · rename_i hsemi
      split at h
      · rename_i hopen
        split at h
        · cases h
        · rename_i entered henter
          cases h
          exact .enterAtRule hat hsplit hopen henter
      · rename_i hopen
        cases h
        rcases splitPrelude_head_ends hsplit with hleft | hright | ⟨_, hstop⟩
        · exact absurd hleft hopen
        · exact .statement hat (hsplit ▸ .brace hright)
        · exact absurd hstop hsemi

theorem stepRule_takes {o : Options} {st st' : State} {t : Token} {ts rest : List Token}
    (hkind : st.body.opensOn t.kind) (hseek : st.body.seeksRule (t :: ts))
    (h : stepRule o st (st.body.readsSelectors o) (t :: ts) = .ok (st', rest)) :
    Takes o st t ts st' rest := by
  unfold stepRule at h
  dsimp only at h
  split at h
  · rename_i hsplit
    split at h <;> cases h
    rename_i hlenient
    rw [← hsplit]
    exact .dropRule hkind hseek (fun _ => by simpa using hlenient) (by simp [hsplit])
  · rename_i u after hsplit
    split at h
    · rename_i hopen
      split at h
      · cases h
      · rename_i entered henter
        cases h
        exact .enterRule hkind hseek hsplit hopen henter
    · rename_i hopen
      cases h
      rw [← hsplit]
      exact .dropRule hkind hseek (by simp [hsplit]) (by simpa [hsplit] using hopen)

/-- Every step does one of the things on the list. -/
theorem step_takes {o : Options} {st st' : State} {t : Token} {ts rest : List Token}
    (h : step o st t ts = .ok (st', rest)) : Takes o st t ts st' rest := by
  unfold step at h
  split at h
  · rename_i selectors hbody
    unfold stepInRules at h
    split at h
    · rename_i hkind
      cases h
      exact .pass (by simp [hbody, Body.skips, hkind])
    · rename_i hkind
      cases h
      exact .pass (by simp [hbody, Body.skips, hkind])
    · rename_i hkind
      cases h
      exact .pass (by simp [hbody, Body.skips, hkind])
    · rename_i hkind
      cases h
      exact .pass (by simp [hbody, Body.skips, hkind])
    · rename_i hkind
      split at h <;> cases h
      rename_i hstrict
      refine .close hkind ?_
      intro _ hframes
      simpa [hframes] using hstrict
    · rename_i hkind
      exact stepAtRule_takes hkind h
    · rename_i hspace hcdo hcdc hsemi hbrace hat
      refine stepRule_takes ?_ ?_ ?_
      · refine ⟨?_, hbrace, hat⟩
        rw [hbody]
        exact skips_rules_eq_false hspace hcdo hcdc hsemi
      · intro hdecl
        rw [hbody] at hdecl
        cases hdecl
      · rw [hbody]
        exact h
  · rename_i hbody
    unfold stepInDeclarations at h
    split at h
    · rename_i hkind
      cases h
      exact .pass (by simp [hbody, Body.skips, hkind])
    · rename_i hkind
      cases h
      exact .pass (by simp [hbody, Body.skips, hkind])
    · rename_i hkind
      cases h
      exact .close hkind fun hne => absurd hbody hne
    · rename_i hkind
      exact stepAtRule_takes hkind h
    · rename_i hspace hsemi hbrace hat
      have hopens : st.body.opensOn t.kind := by
        refine ⟨?_, hbrace, hat⟩
        rw [hbody]
        exact skips_declarations_eq_false hspace hsemi
      split at h
      · rename_i opening hahead
        have hpair := Except.ok.inj h
        obtain rfl : (stepDeclaration st opening).1 = st' := congrArg Prod.fst hpair
        obtain rfl : (stepDeclaration st opening).2 = rest := congrArg Prod.snd hpair
        exact .declare hbody hopens hahead
      · rename_i hahead
        split at h
        · rename_i hrule
          refine stepRule_takes hopens (fun _ => ⟨hahead, hrule⟩) ?_
          rw [hbody]
          exact h
        · rename_i hrule
          cases h
          exact .malformed hbody hopens hahead (by simpa using hrule)

/-!
## Runs

A run is a step followed by a run, so what every step preserves holds at the end.
-/

theorem run_nil (o : Options) (st : State) : run o st [] = .ok st := by
  rw [run]

theorem run_cons_of_ok {o : Options} {st st' : State} {t : Token} {ts rest : List Token}
    (h : step o st t ts = .ok (st', rest)) : run o st (t :: ts) = run o st' rest := by
  rw [run]
  split
  · rename_i e herror
    rw [h] at herror
    cases herror
  · rename_i st'' rest'' hok
    rw [h] at hok
    cases hok
    rfl

theorem run_cons_of_error {o : Options} {st : State} {e : SheetError} {t : Token}
    {ts : List Token} (h : step o st t ts = .error e) : run o st (t :: ts) = .error e := by
  rw [run]
  split
  · rename_i e' herror
    rw [h] at herror
    cases herror
    rfl
  · rename_i hok
    rw [h] at hok
    cases hok

theorem run_cons_ok {o : Options} {st st' : State} {t : Token} {ts : List Token}
    (h : run o st (t :: ts) = .ok st') :
    ∃ next rest, step o st t ts = .ok (next, rest) ∧ run o next rest = .ok st' := by
  rw [run] at h
  split at h
  · cases h
  · rename_i next rest hstep
    exact ⟨next, rest, hstep, h⟩

theorem run_induction {o : Options} (holds : State -> List Token -> Prop)
    (hstep : ∀ {st t ts st' rest}, holds st (t :: ts) -> Takes o st t ts st' rest ->
      holds st' rest)
    {st st' : State} {ts : List Token} (hstart : holds st ts) (h : run o st ts = .ok st') :
    holds st' [] := by
  induction hn : ts.length using Nat.strongRecOn generalizing st ts with
  | ind n ih =>
    cases ts with
    | nil =>
        rw [run_nil] at h
        cases h
        exact hstart
    | cons t ts =>
        obtain ⟨next, rest, hnext, hrun⟩ := run_cons_ok h
        have hlt := step_length hnext
        exact ih rest.length (hn ▸ hlt) (hstep hstart (step_takes hnext)) hrun rfl

/-!
## Texts
-/

theorem build_of_parse {o : Options} {s : Bytes} {sheet : Sheet} (h : parse o s = .ok sheet) :
    build o (.rules o.isStrict) (Token.tokenize s) = .ok sheet := by
  unfold parse ofTokens at h
  split at h
  · cases h
  · exact h

theorem ofTokens_eq_build {o : Options} {ts : List Token}
    (h : o.isStrict = true -> ts.any Token.isBad = false) :
    ofTokens o ts = build o (.rules o.isStrict) ts := by
  have hfirst : (if o.isStrict then firstBad ts else none) = none := by
    cases hstrict : o.isStrict with
    | false => rfl
    | true =>
        have hfind : ts.find? Token.isBad = none :=
          List.find?_eq_none.mpr (List.any_eq_false.mp (h hstrict))
        simp [firstBad, hfind]
  rw [ofTokens, hfirst]

theorem parse_nil (o : Options) : parse o [] = .ok [] := by
  have hread : Reader.comment.read [] = none := rfl
  have htokens : Token.tokenize [] = [Token.endAt 0 false] := by
    rw [Token.tokenize, Token.streamFrom_nil 0 (by rw [Reader.comment.scan_none hread]),
      Reader.comment.scan_none hread]
    rfl
  have hbody : Token.body [Token.endAt 0 false] = [] := rfl
  have hbad : firstBad [Token.endAt 0 false] = none := rfl
  rw [parse, htokens, ofTokens, hbad, ite_self, build, hbody, run_nil]
  cases hstrict : o.isStrict <;> simp [finish, State.closeAll]

end Sheet
end StyleTrim
